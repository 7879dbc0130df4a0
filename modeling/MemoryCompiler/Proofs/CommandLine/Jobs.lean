import MemoryCompiler.CommandLine.Run
import MemoryCompiler.Proofs.Files.Following
import MemoryCompiler.Proofs.Rtl.Staging

/-!
# What the jobs of a run do

A program that reads leaves the host alone, and its answer depends on nothing but the tree and the
directory (`Reads`): sources and documents are found that way. A job that succeeds is taken apart
into its steps (`Yields`). Each file that it writes is put at the place of its path, so that a job of such
steps puts a list of files into the tree (`Puts`).
-/

namespace MemoryCompiler

namespace Files.Host

variable {α β ε : Type}

/-! ### Reading -/

/-- What a program answers on a tree, from a directory. -/
def answerIn (t : Tree) (directory : Place) (p : Program α) : α :=
  ((start t directory).run (fun _ => none) p).1

/-- A program that changes nothing and answers by the tree and the directory. -/
def Reads (p : Program α) : Prop :=
  ∀ (disturbed : Nat → Option Disturbance) (h : Host),
    h.run disturbed p = (answerIn h.tree h.directory p, h)

theorem Reads.pure (a : α) : Reads (pure a : Program α) := fun _ _ => rfl

theorem Reads.read (p : Path) : Reads (Program.ask (.read p)) := fun _ _ => rfl

theorem Reads.bind {p : Program α} {f : α → Program β} (hp : Reads p) (hf : ∀ a, Reads (f a)) :
    Reads (p >>= f) := fun disturbed h => by
  have hanswer : answerIn h.tree h.directory (p >>= f) =
      answerIn h.tree h.directory (f (answerIn h.tree h.directory p)) := by
    rw [answerIn, run_bind, hp, hf]
    rfl
  rw [run_bind, hp, hf, hanswer]

theorem Reads.lift {p : Program α} (hp : Reads p) : Reads (ExceptT.lift p : ExceptT ε Program α).run :=
  hp.bind fun a => .pure (Except.ok a)

theorem Reads.bindExcept {p : ExceptT ε Program α} {f : α → ExceptT ε Program β} (hp : Reads p.run)
    (hf : ∀ a, Reads (f a).run) : Reads (p >>= f).run := by
  refine Reads.bind hp fun answer => ?_
  cases answer with
  | error e => exact .pure (Except.error e)
  | ok a => exact hf a

theorem directory_answer (disturbed : Nat → Option Disturbance) (h : Host) (r : Request) :
    (h.answer disturbed r).2.directory = h.directory := by
  cases r with
  | write p text => rw [answer]; split <;> rfl
  | makeFresh p =>
    rw [answer, makeFresh]
    split
    · rfl
    · dsimp only
      split <;> rfl
  | rename source target =>
    rw [answer, rename]
    split
    · rfl
    · split <;> rfl
    · split <;> rfl
  | _ => rfl

theorem directory_run (disturbed : Nat → Option Disturbance) (h : Host) (p : Program α) :
    (h.run disturbed p).2.directory = h.directory := by
  induction p generalizing h with
  | done a => rfl
  | call r next ih => rw [run, ih, directory_answer]

end Files.Host

open Files Files.Host

namespace ConfigSource

variable (yaml : String → Option Document)

theorem reads_readDocument (file : String) : Reads (readDocument yaml file).run := by
  refine .bindExcept (.lift (.read _)) fun answer => ?_
  cases answer with
  | error f => exact .pure _
  | ok text =>
    dsimp only
    split <;> exact .pure _

theorem reads_loadTemplates (file : Option String) : Reads (loadTemplates yaml file).run := by
  cases file with
  | none => exact .pure _
  | some file =>
    refine .bindExcept (reads_readDocument yaml file) fun d => ?_
    split <;> exact .pure _

theorem reads_resolveWith (reference : String) (templates : Option String) :
    Reads (resolveWith yaml reference templates).run := by
  rw [resolveWith]
  split
  · exact .bindExcept (reads_readDocument yaml reference) fun d => .pure _
  · refine .bindExcept (reads_loadTemplates yaml templates) fun ts => ?_
    split <;> exact .pure _

end ConfigSource

namespace CommandLine

/-! ### Jobs -/

/-- The job succeeds on the host with this result and leaves this host. -/
def Yields {α : Type} (disturbed : Nat → Option Disturbance) (h : Host) (j : Job α) (a : α)
    (h' : Host) : Prop :=
  h.run disturbed j.run = (.ok a, h')

section yields

variable {α β ε : Type} {disturbed : Nat → Option Disturbance} {h h' : Host} {a b : α} {j : Job α}

theorem yields_pure : Yields disturbed h (pure a) b h' ↔ b = a ∧ h' = h := by
  show (Except.ok a, h) = (Except.ok b, h') ↔ _
  rw [Prod.mk.injEq, Except.ok.injEq, eq_comm, eq_comm (a := h)]

theorem not_yields_throw (cause : Failure) : ¬ Yields disturbed h (throw cause) b h' := by
  intro hthrow
  have hrun : h.run disturbed (throw cause : Job α).run = (.error cause, h) := rfl
  rw [Yields, hrun] at hthrow
  cases hthrow

theorem yields_bind {f : α → Job β} {b : β} :
    Yields disturbed h (j >>= f) b h' ↔
      ∃ a h₁, Yields disturbed h j a h₁ ∧ Yields disturbed h₁ (f a) b h' := by
  have hrun : h.run disturbed (j >>= f).run =
      (h.run disturbed j.run).2.run disturbed (ExceptT.bindCont f (h.run disturbed j.run).1) :=
    run_bind disturbed h j.run (ExceptT.bindCont f)
  rw [Yields, hrun]
  constructor
  · intro hb
    cases hj : (h.run disturbed j.run).1 with
    | error cause =>
      rw [hj] at hb
      cases hb
    | ok a =>
      rw [hj] at hb
      exact ⟨a, (h.run disturbed j.run).2, by rw [Yields, ← hj], hb⟩
  · rintro ⟨a, h₁, hj, hb⟩
    rw [Yields] at hj
    rw [hj]
    exact hb

theorem yields_check {cause : ε → Failure} {value : Except ε α} :
    Yields disturbed h (Job.check cause value) a h' ↔ value = .ok a ∧ h' = h := by
  show (value.mapError cause, h) = (Except.ok a, h') ↔ _
  rw [Prod.mk.injEq, eq_comm (a := h)]
  cases value <;> simp [Except.mapError]

theorem yields_attempt {cause : ε → Failure} {p : Program (Except ε α)} :
    Yields disturbed h (Job.attempt cause p) a h' ↔ h.run disturbed p = (.ok a, h') := by
  have hrun : h.run disturbed (Job.attempt cause p).run =
      ((h.run disturbed p).1.mapError cause, (h.run disturbed p).2) := run_bind disturbed h p _
  rw [Yields, hrun]
  obtain ⟨result, h₁⟩ := h.run disturbed p
  cases result <;> simp [Except.mapError]

theorem yields_check_bind {β : Type} {cause : ε → Failure} {value : Except ε α} {f : α → Job β} {b : β} :
    Yields disturbed h (Job.check cause value >>= f) b h' ↔
      ∃ a, value = .ok a ∧ Yields disturbed h (f a) b h' := by
  simp only [yields_bind, yields_check]
  constructor
  · rintro ⟨a, _, ⟨ha, rfl⟩, hb⟩
    exact ⟨a, ha, hb⟩
  · rintro ⟨a, ha, hb⟩
    exact ⟨a, h, ⟨ha, rfl⟩, hb⟩

theorem yields_reads_bind {β : Type} {cause : ε → Failure} {p : Program (Except ε α)} (hp : Reads p)
    {f : α → Job β} {b : β} :
    Yields disturbed h (Job.attempt cause p >>= f) b h' ↔
      ∃ a, answerIn h.tree h.directory p = .ok a ∧ Yields disturbed h (f a) b h' := by
  simp only [yields_bind, yields_attempt, hp disturbed h, Prod.mk.injEq]
  constructor
  · rintro ⟨a, _, ⟨ha, rfl⟩, hb⟩
    exact ⟨a, ha, hb⟩
  · rintro ⟨a, ha, hb⟩
    exact ⟨a, h, ⟨ha, rfl⟩, hb⟩

theorem Yields.directory (hj : Yields disturbed h j a h') : h'.directory = h.directory := by
  have hrun := directory_run disturbed h j.run
  rwa [hj] at hrun

theorem yields_mapM {γ : Type} {f : γ → Job α} {g : γ → Except Failure α}
    (hf : ∀ x a h', Yields disturbed h (f x) a h' → g x = .ok a ∧ h' = h) {xs : List γ} {as : List α}
    (hj : Yields disturbed h (xs.mapM f) as h') : xs.mapM g = .ok as ∧ h' = h := by
  induction xs generalizing as h' with
  | nil =>
    obtain ⟨rfl, rfl⟩ := yields_pure.1 hj
    exact ⟨rfl, rfl⟩
  | cons x xs ih =>
    rw [List.mapM_cons] at hj ⊢
    obtain ⟨a, h₁, hfirst, hothers⟩ := yields_bind.1 hj
    obtain ⟨ha, rfl⟩ := hf x a h₁ hfirst
    obtain ⟨others, h₂, hrest, hreturn⟩ := yields_bind.1 hothers
    obtain ⟨hall, rfl⟩ := ih hrest
    obtain ⟨rfl, rfl⟩ := yields_pure.1 hreturn
    rw [ha, hall]
    exact ⟨rfl, rfl⟩

/-! ### Lines on the console -/

theorem tree_of_yields_print {text : String} {u : Unit} (hj : Yields disturbed h (Job.print text) u h') :
    h'.tree = h.tree := by
  cases hj
  rfl

theorem tree_of_yields_prints {lines : List String} {u : Unit} {line : String → String}
    (hj : Yields disturbed h (lines.forM fun l => Job.print (line l)) u h') : h'.tree = h.tree := by
  induction lines generalizing h with
  | nil =>
    obtain ⟨-, rfl⟩ := yields_pure.1 hj
    rfl
  | cons l lines ih =>
    obtain ⟨_, h₁, hprint, hj⟩ := yields_bind.1 hj
    exact (ih hj).trans (tree_of_yields_print hprint)

theorem tree_of_yields_tell {e : Environment} {text : String} {u : Unit}
    (hj : Yields disturbed h (Job.tell e text) u h') : h'.tree = h.tree := by
  obtain ⟨lines, hlog⟩ := Rtl.Publication.run_log (h := h) disturbed e.log "cli" .info [text]
  have hrun : h.run disturbed (Job.tell e text).run = (.ok (), { h with printed := lines }) := by
    have hbind := run_bind disturbed h (Program.log e.log "cli" .info [text])
      fun u => (pure (.ok u) : Program (Except Failure Unit))
    rw [hlog] at hbind
    exact hbind
  rw [Yields, hrun] at hj
  cases hj
  rfl

end yields

/-! ### Files that are put into the tree -/

/-- The path of a file and its text. -/
abbrev OutputFile := Path × String

def placesOf (directory : Place) (files : List OutputFile) : List Place :=
  files.map fun f => f.1.placeFrom directory

section puts

variable {α β ε : Type} {disturbed : Nat → Option Disturbance} {h h' : Host}
  {files : Except Failure (List OutputFile)}

/-- The second tree is the first one with these files at the places of their paths, none of which was a
directory. -/
inductive WithFiles (directory : Place) : Tree → List OutputFile → Tree → Prop
  | nil (t : Tree) : WithFiles directory t [] t
  | cons {t t' : Tree} {f : OutputFile} {fs : List OutputFile}
      (hfree : t.get? (f.1.placeFrom directory) ≠ some .directory)
      (hrest : WithFiles directory (t.put (f.1.placeFrom directory) (.file f.2)) fs t') :
      WithFiles directory t (f :: fs) t'

section withFiles

variable {directory x : Place} {t t₁ t₂ t' : Tree} {fs gs : List OutputFile} {f : OutputFile}

theorem WithFiles.append (hfs : WithFiles directory t fs t₁) (hgs : WithFiles directory t₁ gs t₂) :
    WithFiles directory t (fs ++ gs) t₂ := by
  induction hfs with
  | nil => exact hgs
  | cons hfree _ ih => exact .cons hfree (ih hgs)

theorem WithFiles.get?_of_notMem (hw : WithFiles directory t fs t')
    (hx : x ∉ placesOf directory fs) : t'.get? x = t.get? x := by
  induction hw with
  | nil => rfl
  | cons _ _ ih =>
    rw [placesOf, List.map_cons, List.mem_cons, not_or] at hx
    rw [ih hx.2, Tree.get?_put_of_ne _ _ hx.1]

theorem WithFiles.get?_of_mem (hw : WithFiles directory t fs t')
    (hdistinct : (placesOf directory fs).Nodup) (hf : f ∈ fs) :
    t'.get? (f.1.placeFrom directory) = some (.file f.2) := by
  induction hw with
  | nil => cases hf
  | cons hfree hrest ih =>
    rw [placesOf, List.map_cons, List.nodup_cons] at hdistinct
    rcases List.mem_cons.1 hf with rfl | hf
    · rw [hrest.get?_of_notMem hdistinct.1, Tree.get?_put _ _ fun he => hfree (by rw [he]; rfl)]
    · exact ih hdistinct.2 hf

theorem WithFiles.get?_directory (hw : WithFiles directory t fs t') (hx : t.get? x = some .directory) :
    t'.get? x = some .directory := by
  induction hw with
  | nil => exact hx
  | cons hfree _ ih =>
    refine ih ?_
    rwa [Tree.get?_put_of_ne _ _ fun he => hfree (by rw [← he]; exact hx)]

end withFiles

theorem yields_writeFile {o : Options} {name text : String} {path : Path}
    (hj : Yields disturbed h (Job.writeFile o name text) path h') :
    path = (Path.ofText o.output).join name ∧
      WithFiles h.directory h.tree [(path, text)] h'.tree := by
  obtain ⟨_, h₁, hwrite, hreturn⟩ := yields_bind.1 hj
  obtain ⟨rfl, rfl⟩ := yields_pure.1 hreturn
  rw [yields_attempt, run_ask, answer] at hwrite
  cases htree : h.tree.write h.directory ((Path.ofText o.output).join name) text with
  | error f =>
    rw [htree] at hwrite
    cases hwrite
  | ok t =>
    rw [htree] at hwrite
    cases hwrite
    obtain ⟨rfl, hfree⟩ := Tree.write_spec htree
    exact ⟨rfl, .cons hfree (.nil _)⟩

/-- Files that an option asks for. -/
def askedFiles (asked : Bool) (files : Except Failure (List OutputFile)) :
    Except Failure (List OutputFile) :=
  if asked then files else .ok []

/-- What the job writes where it succeeds: it puts these files into the tree and answers their paths. -/
def Puts (j : Job (List Path)) (files : Except Failure (List OutputFile)) : Prop :=
  ∀ (disturbed : Nat → Option Disturbance) (h h' : Host) (paths : List Path),
    Yields disturbed h j paths h' → ∃ fs, files = .ok fs ∧ paths = fs.map Prod.fst ∧
      WithFiles h.directory h.tree fs h'.tree

theorem puts_writeFile {o : Options} {name text : String} {next : Path → Job (List Path)}
    (hnext : ∀ {disturbed : Nat → Option Disturbance} {h h' : Host} {path : Path} {paths : List Path},
      Yields disturbed h (next path) paths h' → paths = [path] ∧ h'.tree = h.tree) :
    Puts (Job.writeFile o name text >>= next) (.ok [((Path.ofText o.output).join name, text)]) := by
  intro disturbed h h' paths hj
  obtain ⟨path, h₁, hwrite, hrest⟩ := yields_bind.1 hj
  obtain ⟨rfl, hput⟩ := yields_writeFile hwrite
  obtain ⟨hpaths, htree⟩ := hnext hrest
  rw [← htree] at hput
  exact ⟨_, rfl, hpaths, hput⟩

theorem yields_tell_return {e : Environment} {text : String} {paths paths' : List Path}
    (hj : Yields disturbed h (Job.tell e text >>= fun _ => pure paths) paths' h') :
    paths' = paths ∧ h'.tree = h.tree := by
  obtain ⟨_, h₁, htell, hreturn⟩ := yields_bind.1 hj
  obtain ⟨rfl, rfl⟩ := yields_pure.1 hreturn
  exact ⟨rfl, tree_of_yields_tell htell⟩

theorem Puts.check {cause : ε → Failure} {value : Except ε α} {next : α → Job (List Path)}
    {files : α → Except Failure (List OutputFile)} (hnext : ∀ a, Puts (next a) (files a)) :
    Puts (Job.check cause value >>= next) (value.mapError cause >>= files) := by
  intro disturbed h h' paths hj
  obtain ⟨a, rfl, hrest⟩ := yields_check_bind.1 hj
  exact hnext a _ _ _ _ hrest

theorem puts_onlyIf {asked : Bool} {action : Job (List Path)} (haction : Puts action files) :
    Puts (onlyIf asked action) (askedFiles asked files) := by
  intro disturbed h h' paths hj
  cases asked with
  | true => exact haction _ _ _ _ hj
  | false =>
    obtain ⟨rfl, rfl⟩ := yields_pure.1 hj
    exact ⟨[], rfl, rfl, .nil _⟩

end puts

end CommandLine

end MemoryCompiler

import MemoryCompiler.Proofs.Rtl.Staging

/-!
# Publishing

What the parts of a publication come to, whatever renames are disturbed: putting back, replacing the
destination, moving in, and the whole (`run_publishAt`). A publication has at most three renames: the
destination is set aside, the staged directory takes its place, and what was set aside is put back when
that fails.
-/

namespace MemoryCompiler.Rtl.Publication

open Files

variable {disturbed : Nat → Option Disturbance} {h h' : Host} {d s r : Place}

/-! ### What is left of a destination -/

/-- From one host to another the second and the third rename failed, each for a reason of the host's
own. -/
def FailsTwice (disturbed : Nat → Option Disturbance) (h h' : Host) : Prop :=
  h'.renames = h.renames + 3 ∧ (∃ reason, disturbed (h.renames + 2) = some (.fails reason)) ∧
    ∃ reason, disturbed (h.renames + 3) = some (.fails reason)

/-- A place holds what it held but for a directory that another writer put there. Only the root holds
something besides that directory. -/
def Intact (disturbed : Nat → Option Disturbance) (h h' : Host) (d : Place) : Prop :=
  h'.tree.below d = h.tree.below d ∨
    ∃ n reason files z, h.renames < n ∧ n ≤ h'.renames ∧
      disturbed n = some (.overtaken reason files) ∧ (d ≠ [] → z = []) ∧
      h'.tree.below (d ++ z) = flat files ∧ ∀ x, ¬ z <+: x → h'.tree.below d x = h.tree.below d x

theorem Intact.of_below (hbelow : h'.tree.below d = h.tree.below d) : Intact disturbed h h' d :=
  .inl hbelow

theorem Intact.of_flat {n : Nat} {reason : String} {files : List (String × String)}
    (hlow : h.renames < n) (hhigh : n ≤ h'.renames)
    (hd : disturbed n = some (.overtaken reason files)) (hflat : h'.tree.below d = flat files) :
    Intact disturbed h h' d := by
  refine .inr ⟨n, reason, files, [], hlow, hhigh, hd, fun _ => rfl, ?_, fun x hx => ?_⟩
  · rwa [List.append_nil]
  · exact absurd List.nil_prefix hx

/-- What a publication that fails leaves at its destination. -/
inductive Left (disturbed : Nat → Option Disturbance) (h h' : Host) (d : Place) : Prop
  | kept (intact : Intact disturbed h h' d) (once : ¬ FailsTwice disturbed h h')
  | lost (twice : FailsTwice disturbed h h') (before : h.tree.get? d = some .directory)
      (after : h'.tree.get? d = none)

theorem not_failsTwice (hn : h'.renames ≠ h.renames + 3) : ¬ FailsTwice disturbed h h' := fun htwice =>
  hn htwice.1

theorem Left.congr {h₀ h₁ : Host} (hleft : Left disturbed h h' d)
    (hbefore : h.tree.below d = h₀.tree.below d) (hafter : h₁.tree.below d = h'.tree.below d)
    (hrenames : h.renames = h₀.renames) (hrenames' : h₁.renames = h'.renames) :
    Left disturbed h₀ h₁ d := by
  have htwice : FailsTwice disturbed h₀ h₁ ↔ FailsTwice disturbed h h' := by
    rw [FailsTwice, FailsTwice, hrenames, hrenames']
  cases hleft with
  | lost twice before after =>
    refine .lost (htwice.2 twice) ?_ ?_
    · rw [← Tree.below_nil, ← hbefore, Tree.below_nil]
      exact before
    · rw [← Tree.below_nil, hafter, Tree.below_nil]
      exact after
  | kept intact once =>
    refine .kept ?_ (mt htwice.1 once)
    rcases intact with hsame | ⟨n, reason, files, z, hlow, hhigh, hd, hz, hflat, hframe⟩
    · exact .inl (by rw [hafter, hsame, hbefore])
    · refine .inr ⟨n, reason, files, z, by omega, by omega, hd, hz, ?_, fun x hx => ?_⟩
      · funext x
        have hx := congrFun hafter (z ++ x)
        have hold := congrFun hflat x
        rw [Tree.below, List.append_assoc] at hold ⊢
        exact hx.trans hold
      · rw [hafter, ← hbefore]
        exact hframe x hx

/-! ### Putting back -/

/-- What putting the directory at `r` back to `d` comes to. -/
inductive PutBack (disturbed : Nat → Option Disturbance) (h h' : Host) (r d : Place) : Prop
  | restored (calm : disturbed (h.renames + 1) = none) (target : h'.tree.below d = h.tree.below r)
  | stays (why : (h.tree.get? d).isSome ∨ ∃ reason, disturbed (h.renames + 1) = some (.fails reason))
      (target : h'.tree.below d = h.tree.below d)
  | overtaken {reason : String} {files : List (String × String)}
      (disturbance : disturbed (h.renames + 1) = some (.overtaken reason files))
      (free : h.tree.get? d = none) (target : h'.tree.below d = flat files)

/-- Outside two places a tree is as it was. -/
def SameOutside (t t' : Tree) (p q : Place) : Prop :=
  ∀ x, ¬ p <+: x → ¬ q <+: x → t'.get? x = t.get? x

theorem run_putBack (log : Log.Threshold) (ht : h.tree.WellFormed) (hothers : Host.PlainOthers disturbed)
    (hr : Named r) (hd : Named d) (hsource : h.tree.get? r = some .directory)
    (hparent : h.tree.get? d.dropLast = some .directory) (hrd : Apart r d)
    (hfile : ∀ text, h.tree.get? d ≠ some (.file text)) :
    ∃ h', h.run disturbed (putBack log (Path.ofPlace r) (Path.ofPlace d)) = ((), h') ∧
      h'.tree.WellFormed ∧ h'.renames = h.renames + 1 ∧ PutBack disturbed h h' r d ∧
      (∀ x, h'.tree.below r x = none) ∧ SameOutside h.tree h'.tree d r := by
  have hne : r ≠ [] := fun he => hrd.1 (by rw [he]; exact List.nil_prefix)
  -- After a rename that failed the retired directory is removed.
  have hfailed : ∀ (h₁ : Host) (f : Fault), h₁.tree.WellFormed →
      ∃ h₂, Host.run disturbed h₁
          (Program.log log logName .warn ["cannot restore " ++ (Path.ofPlace d).text ++
              ", keeping the set now in place:", "Error: " ++ f.text] >>= fun _ =>
            Program.ask (.remove (Path.ofPlace r))) = ((), h₂) ∧
        h₂.tree.WellFormed ∧ h₂.renames = h₁.renames ∧
        ∀ x, h₂.tree.get? x = if r <+: x then none else h₁.tree.get? x := by
    intro h₁ f ht₁
    obtain ⟨lines, hlog⟩ := run_log (h := h₁) disturbed log logName .warn
      ["cannot restore " ++ (Path.ofPlace d).text ++ ", keeping the set now in place:",
        "Error: " ++ f.text]
    obtain ⟨t, hremove, hwf, hget⟩ :=
      run_remove (h := { h₁ with printed := lines }) disturbed ht₁ hr hne
    refine ⟨{ h₁ with tree := t, printed := lines }, ?_, hwf, rfl, hget⟩
    rw [Host.run_bind, hlog, hremove]
  have hgone : ∀ {t t' : Tree}, (∀ x, t'.get? x = if r <+: x then none else t.get? x) →
      ∀ x, t'.below r x = none := fun hget x => by
    rw [Tree.below, hget, if_pos (List.prefix_append r x)]
  have hanswer := Host.renamed_rename ht hothers hr hd hsource hparent hrd.2 hfile
  rw [putBack, Host.run_bind, Host.run_ask, Host.answer]
  generalize h.rename disturbed (Path.ofPlace r) (Path.ofPlace d) = answer at hanswer ⊢
  cases hanswer with
  | done calm outside free moved wellFormed =>
    exact ⟨_, rfl, wellFormed, rfl, .restored calm moved.below_target, moved.below_source hrd,
      fun x hdx hrx => moved.get?_of_apart hrx hdx⟩
  | refused f why =>
    obtain ⟨h₂, hrun, hwf, hrenames, hget⟩ := hfailed { h with renames := h.renames + 1 } f ht
    refine ⟨h₂, hrun, hwf, hrenames, .stays ?_ (Tree.below_of_removed hrd hget), hgone hget,
      fun x _ hrx => by rw [hget, if_neg hrx]⟩
    rcases why with hsome | hunder | hfails
    · exact .inl hsome
    · exact absurd hunder hrd.1
    · exact .inr hfails
  | @overtaken t files reason disturbance free flat_target frame wellFormed =>
    obtain ⟨h₂, hrun, hwf, hrenames, hget⟩ :=
      hfailed { h with tree := t, renames := h.renames + 1 } (.other reason) wellFormed
    have hbelow : h₂.tree.below d = t.below d := Tree.below_of_removed hrd hget
    exact ⟨h₂, hrun, hwf, hrenames, .overtaken disturbance free (hbelow.trans flat_target), hgone hget,
      fun x hdx hrx => by rw [hget, if_neg hrx]; exact frame x hdx⟩

/-! ### Setting aside -/

/-- The host is ready to move the n-th staged directory to its destination. -/
structure Prepared (h : Host) (d : Place) (n : Nat) : Prop where
  wellFormed : h.tree.WellFormed
  parent : h.tree.get? d.dropLast = some .directory
  staged : h.tree.get? (stagedPlace d n) = some .directory
  retired_free : ∀ x, h.tree.below (retiredPlace d n) x = none

theorem Prepared.retired_no_file {n : Nat} (hp : Prepared h d n) (text : String) :
    h.tree.get? (retiredPlace d n) ≠ some (.file text) := by
  rw [← Tree.below_nil, hp.retired_free]
  simp

structure SetAside (h h₁ : Host) (d : Place) (n : Nat) : Prop where
  wellFormed : h₁.tree.WellFormed
  parent : h₁.tree.get? d.dropLast = some .directory
  staged : h₁.tree.get? (stagedPlace d n) = some .directory
  retired : h₁.tree.below (retiredPlace d n) = h.tree.below d
  empty : ∀ x, h₁.tree.below d x = none

theorem setAside_of_moved {n : Nat} {t : Tree} (hp : Prepared h d n) (hroot : d ≠ [])
    (ht : t.WellFormed) (hmoved : Tree.Moved h.tree d (retiredPlace d n) t) (renames : Nat) :
    SetAside h { h with tree := t, renames := renames } d n where
  wellFormed := ht
  parent := by
    show t.get? d.dropLast = _
    rw [hmoved.get?_of_apart (not_below_dropLast hroot rfl)
      (not_below_dropLast (retiredPlace_ne_nil d n) (dropLast_retiredPlace d n))]
    exact hp.parent
  staged := by
    show t.get? (stagedPlace d n) = _
    rw [hmoved.get?_of_apart (apart_staged_destination hroot n).2 (apart_staged_retired d n n).2]
    exact hp.staged
  retired := hmoved.below_target
  empty := hmoved.below_source (apart_retired_destination hroot n).symm

theorem SetAside.free {h₁ : Host} {n : Nat} (ha : SetAside h h₁ d n) : h₁.tree.get? d = none := by
  rw [← Tree.below_nil]
  exact ha.empty []

/-! ### Moving in -/

/-- The root is as it was, but for a directory that another writer put where it was to be set aside. -/
def RootKept (disturbed : Nat → Option Disturbance) (h h' : Host) (n : Nat) : Prop :=
  h'.renames = h.renames + 1 ∧
    (h'.tree = h.tree ∨ ∃ reason files, disturbed (h.renames + 1) = some (.overtaken reason files) ∧
      h'.tree.below (retiredPlace [] n) = flat files ∧
      ∀ x, ¬ retiredPlace [] n <+: x → h'.tree.get? x = h.tree.get? x)

/-- What moving the n-th staged directory to its destination comes to. -/
structure MovedIn (disturbed : Nat → Option Disturbance) (h h' : Host) (d : Place) (n : Nat)
    (result : Except PublicationError Unit) : Prop where
  wellFormed : h'.tree.WellFormed
  unmoved : h'.renames = h.renames → h'.tree = h.tree
  frame : ∀ x, ¬ d <+: x → ¬ stagedPlace d n <+: x → ¬ retiredPlace d n <+: x →
    h'.tree.get? x = h.tree.get? x
  retired : (∀ x, h'.tree.below (retiredPlace d n) x = none) ∨
    ∃ reason files, disturbed (h.renames + 1) = some (.overtaken reason files)
  arrived : result = .ok () → h'.tree.below d = h.tree.below (stagedPlace d n) ∧
    ∀ x, h'.tree.below (stagedPlace d n) x = none
  left : ∀ e, result = .error e → d ≠ [] → Left disturbed h h' d
  root : d = [] → RootKept disturbed h h' n

theorem MovedIn.of_failed {n : Nat} {e : PublicationError} (hroot : d ≠ []) (hwf : h'.tree.WellFormed)
    (hunmoved : h'.renames = h.renames → h'.tree = h.tree)
    (hframe : ∀ x, ¬ d <+: x → ¬ stagedPlace d n <+: x → ¬ retiredPlace d n <+: x →
      h'.tree.get? x = h.tree.get? x)
    (hretired : (∀ x, h'.tree.below (retiredPlace d n) x = none) ∨
      ∃ reason files, disturbed (h.renames + 1) = some (.overtaken reason files))
    (hleft : Left disturbed h h' d) : MovedIn disturbed h h' d n (.error e) where
  wellFormed := hwf
  unmoved := hunmoved
  frame := hframe
  retired := hretired
  arrived := fun hok => by cases hok
  left := fun _ _ _ => hleft
  root := fun he => absurd he hroot

theorem MovedIn.of_arrived {n : Nat} (hroot : d ≠ []) (hwf : h'.tree.WellFormed)
    (hn : h'.renames ≠ h.renames)
    (hframe : ∀ x, ¬ d <+: x → ¬ stagedPlace d n <+: x → ¬ retiredPlace d n <+: x →
      h'.tree.get? x = h.tree.get? x)
    (hretired : ∀ x, h'.tree.below (retiredPlace d n) x = none)
    (htarget : h'.tree.below d = h.tree.below (stagedPlace d n))
    (hgone : ∀ x, h'.tree.below (stagedPlace d n) x = none) : MovedIn disturbed h h' d n (.ok ()) where
  wellFormed := hwf
  unmoved := fun he => absurd he hn
  frame := hframe
  retired := .inl hretired
  arrived := fun _ => ⟨htarget, hgone⟩
  left := fun _ he => by cases he
  root := fun he => absurd he hroot

theorem MovedIn.of_refused {n : Nat} {e : PublicationError} (hp : Prepared h d n) (hroot : d ≠ []) :
    MovedIn disturbed h { h with renames := h.renames + 1 } d n (.error e) := by
  have hn : h.renames + 1 ≠ h.renames + 3 := by omega
  exact .of_failed hroot hp.wellFormed (fun he => absurd he (Nat.succ_ne_self _)) (fun _ _ _ _ => rfl)
    (.inl hp.retired_free) (.kept (.of_below rfl) (not_failsTwice hn))

/-- What is left when the swap was refused and the directory was to be put back. -/
theorem left_of_refused {h₂ : Host} (hback : PutBack disturbed h₂ h' r d)
    (htarget : h.tree.get? d = some .directory)
    (hretired : h₂.tree.below r = h.tree.below d) (hempty : h₂.tree.get? d = none)
    (hn : h₂.renames = h.renames + 2) (hn' : h'.renames = h₂.renames + 1)
    (hfails : ∃ reason, disturbed (h.renames + 2) = some (.fails reason)) : Left disturbed h h' d := by
  rw [hn] at hn'
  cases hback with
  | restored calm target =>
    refine .kept (.of_below (target.trans hretired)) fun htwice => ?_
    obtain ⟨reason, hthird⟩ := htwice.2.2
    rw [hn, hthird] at calm
    cases calm
  | stays why target =>
    rw [hn] at why
    rcases why with hsome | hthird
    · rw [hempty] at hsome
      cases hsome
    · refine .lost ⟨hn', hfails, hthird⟩ htarget ?_
      rw [← Tree.below_nil, target, Tree.below_nil]
      exact hempty
  | overtaken disturbance free target =>
    rw [hn] at disturbance
    refine .kept (.of_flat (by omega) hn'.ge disturbance target) fun htwice => ?_
    obtain ⟨reason, hthird⟩ := htwice.2.2
    rw [disturbance] at hthird
    cases hthird

/-- What is left when another writer came before the swap and the directory was to be put back. -/
theorem left_of_overtaken {h₂ : Host} {reason : String} {files : List (String × String)}
    (hback : PutBack disturbed h₂ h' r d) (hretired : h₂.tree.below r = h.tree.below d)
    (hflat : h₂.tree.below d = flat files) (hn : h₂.renames = h.renames + 2)
    (hn' : h'.renames = h₂.renames + 1)
    (hd : disturbed (h.renames + 2) = some (.overtaken reason files)) : Left disturbed h h' d := by
  have honce : ¬ FailsTwice disturbed h h' := by
    rintro ⟨-, ⟨reason', hfails⟩, -⟩
    rw [hd] at hfails
    cases hfails
  refine .kept ?_ honce
  cases hback with
  | restored calm target => exact .of_below (target.trans hretired)
  | stays why target => exact .of_flat (by omega) (by omega) hd (target.trans hflat)
  | overtaken disturbance free target =>
    rw [Tree.get?_of_below_flat hflat] at free
    cases free

theorem MovedIn.of_swapped {n : Nat} {t₁ t₂ t₃ : Tree} (hroot : d ≠ []) (hwf : t₃.WellFormed)
    (haside : Tree.Moved h.tree d (retiredPlace d n) t₁) (hswap : Tree.Moved t₁ (stagedPlace d n) d t₂)
    (hget : ∀ x, t₃.get? x = if retiredPlace d n <+: x then none else t₂.get? x) :
    MovedIn disturbed h { h with tree := t₃, renames := h.renames + 2 } d n (.ok ()) := by
  have hsd := apart_staged_destination hroot n
  have hrd := apart_retired_destination hroot n
  have hsr := apart_staged_retired d n n
  have hn : h.renames + 2 ≠ h.renames := by omega
  refine .of_arrived hroot hwf hn (fun x hdx hsx hrx => ?_) (fun x => ?_) ?_ fun x => ?_
  · rw [hget, if_neg hrx]
    exact (hswap.get?_of_apart hsx hdx).trans (haside.get?_of_apart hdx hrx)
  · rw [Tree.below, hget, if_pos (List.prefix_append _ x)]
  · rw [Tree.below_of_removed hrd hget, hswap.below_target]
    exact haside.below_other hsd.symm hsr.symm
  · rw [Tree.below_of_removed hsr.symm hget]
    exact hswap.below_source hsd x

/-- Where the swap failed and left the tree `t₂`, the directory that was set aside is put back. -/
theorem run_putBack_of_failed (log : Log.Threshold) {n : Nat} {t₁ t₂ : Tree} (f : Fault)
    (hothers : Host.PlainOthers disturbed) (hd : Named d) (hroot : d ≠ [])
    (htarget : h.tree.get? d = some .directory)
    (ha : SetAside h { h with tree := t₁, renames := h.renames + 1 } d n)
    (haside : Tree.Moved h.tree d (retiredPlace d n) t₁) (ht : t₂.WellFormed)
    (hswap : ∀ x, ¬ d <+: x → t₂.get? x = t₁.get? x) (hfile : ∀ text, t₂.get? d ≠ some (.file text))
    (hleft : t₂.below (retiredPlace d n) = h.tree.below d → ∀ h',
      PutBack disturbed { h with tree := t₂, renames := h.renames + 2 } h' (retiredPlace d n) d →
      h'.renames = h.renames + 3 → Left disturbed h h' d) :
    ∃ result h', Host.run disturbed { h with tree := t₂, renames := h.renames + 2 }
        (putBack log (Path.ofPlace (retiredPlace d n)) (Path.ofPlace d) >>= fun _ =>
          pure (.error ⟨Path.ofPlace d, .swap, some f⟩)) = (result, h') ∧
      MovedIn disturbed h h' d n result := by
  have hrd := apart_retired_destination hroot n
  have hretired : t₂.below (retiredPlace d n) = h.tree.below d := by
    rw [← ha.retired]
    exact funext fun x => hswap _ (hrd.symm.not_below x)
  have hsource : t₂.get? (retiredPlace d n) = some .directory := by
    rw [← Tree.below_nil, hretired, Tree.below_nil]
    exact htarget
  have hparent : t₂.get? d.dropLast = some .directory :=
    (hswap _ (not_below_dropLast hroot rfl)).trans ha.parent
  obtain ⟨h', hrun, hwf, hrenames, hback, hgone, hsame⟩ :=
    run_putBack (h := { h with tree := t₂, renames := h.renames + 2 }) log ht hothers
      (named_retiredPlace hd n) hd hsource hparent hrd hfile
  have hn : h'.renames = h.renames + 3 := hrenames
  refine ⟨_, h', by rw [Host.run_bind, hrun]; rfl, .of_failed hroot hwf (fun he => by omega)
    (fun x hdx _ hrx => ?_) (.inl hgone) (hleft hretired h' hback hn)⟩
  rw [hsame x hdx hrx, ← haside.get?_of_apart hdx hrx]
  exact hswap x hdx

theorem run_replaceTarget (log : Log.Threshold) {n : Nat} (hp : Prepared h d n)
    (hothers : Host.PlainOthers disturbed) (hd : Named d) (hroot : d ≠ [])
    (htarget : h.tree.get? d = some .directory) :
    ∃ result h', h.run disturbed
        (replaceTarget log (Path.ofPlace (stagedPlace d n)) (Path.ofPlace d)) = (result, h') ∧
      MovedIn disturbed h h' d n result := by
  have hs := named_stagedPlace hd n
  have hr := named_retiredPlace hd n
  have hsd := apart_staged_destination hroot n
  have hrd := apart_retired_destination hroot n
  have hretire := Host.renamed_rename hp.wellFormed hothers hd hr htarget
    (by rw [dropLast_retiredPlace]; exact hp.parent) hrd.1 hp.retired_no_file
  rw [replaceTarget, retiredPath_stagedPlace, Host.run_bind, Host.run_ask, Host.answer]
  generalize h.rename disturbed (Path.ofPlace d) (Path.ofPlace (retiredPlace d n)) = answer
    at hretire ⊢
  cases hretire with
  | refused f why => exact ⟨_, _, rfl, .of_refused hp hroot⟩
  | @overtaken t files reason disturbance free flat_target frame wellFormed =>
    have hn : h.renames + 1 ≠ h.renames + 3 := by omega
    have hkept : t.below d = h.tree.below d := funext fun x => frame _ (hrd.not_below x)
    exact ⟨_, _, rfl, .of_failed hroot wellFormed (fun he => absurd he (Nat.succ_ne_self _))
      (fun x _ _ hrx => frame x hrx) (.inr ⟨_, _, disturbance⟩)
      (.kept (.of_below hkept) (not_failsTwice hn))⟩
  | @done t₁ calm₁ outside₁ free₁ moved₁ wellFormed₁ =>
    have ha := setAside_of_moved hp hroot wellFormed₁ moved₁ (h.renames + 1)
    have hswap := Host.renamed_rename ha.wellFormed hothers hs hd ha.staged ha.parent hsd.2
      (by rw [ha.free]; simp)
    show ∃ result h', Host.run disturbed { h with tree := t₁, renames := h.renames + 1 }
      (Program.ask (.rename (Path.ofPlace (stagedPlace d n)) (Path.ofPlace d)) >>= _) = _ ∧ _
    rw [Host.run_bind, Host.run_ask, Host.answer]
    generalize Host.rename disturbed { h with tree := t₁, renames := h.renames + 1 }
      (Path.ofPlace (stagedPlace d n)) (Path.ofPlace d) = answer at hswap ⊢
    cases hswap with
    | @done t₂ calm₂ outside₂ free₂ moved₂ wellFormed₂ =>
      obtain ⟨t₃, hremove, hwf, hget⟩ :=
        run_remove (h := { h with tree := t₂, renames := h.renames + 2 }) disturbed wellFormed₂ hr
          (retiredPlace_ne_nil d n)
      refine ⟨.ok (), { h with tree := t₃, renames := h.renames + 2 }, ?_,
        .of_swapped hroot hwf moved₁ moved₂ hget⟩
      show Host.run disturbed { h with tree := t₂, renames := h.renames + 2 }
        (Program.ask (.remove (Path.ofPlace (retiredPlace d n))) >>= _) = _
      rw [Host.run_bind, hremove]
      rfl
    | refused f why =>
      have hfails : ∃ reason, disturbed (h.renames + 2) = some (.fails reason) := by
        rcases why with hsome | hunder | hfails
        · rw [ha.free] at hsome
          cases hsome
        · exact absurd hunder hsd.1
        · exact hfails
      exact run_putBack_of_failed log f hothers hd hroot htarget ha moved₁ wellFormed₁ (fun _ _ => rfl)
        (fun text he => by cases ha.free.symm.trans he) fun hretired h' hback hn =>
          left_of_refused hback htarget hretired ha.free rfl hn hfails
    | @overtaken t₂ files reason disturbance free₂ flat_target frame wellFormed₂ =>
      exact run_putBack_of_failed log (.other reason) hothers hd hroot htarget ha moved₁ wellFormed₂ frame
        (by rw [Tree.get?_of_below_flat flat_target]; simp) fun hretired h' hback hn =>
          left_of_overtaken hback hretired flat_target rfl hn disturbance

theorem answer_present (ht : h.tree.WellFormed) (hd : Named d) :
    h.answer disturbed (.present (Path.ofPlace d)) = ((h.tree.get? d).isSome, h) := by
  rw [Host.answer, Tree.isOk_find ht hd]

theorem answer_isDirectory {e : Entry} (ht : h.tree.WellFormed) (hd : Named d)
    (hget : h.tree.get? d = some e) :
    h.answer disturbed (.isDirectory (Path.ofPlace d)) = (.ok (decide (e = .directory)), h) := by
  rw [Host.answer, Tree.find_of_get? ht hd hget]
  rfl

/-- The root is never set aside, as it cannot be moved into itself. -/
theorem run_moveIn_root (log : Log.Threshold) {n : Nat} (hp : Prepared h [] n)
    (hothers : Host.PlainOthers disturbed) :
    ∃ e h', h.run disturbed
        (moveIn log (Path.ofPlace (stagedPlace [] n)) (Path.ofPlace [])) = (.error e, h') ∧
      h'.tree.WellFormed ∧ RootKept disturbed h h' n := by
  have hr := named_retiredPlace named_nil n
  have hretire := Host.renamed_rename hp.wellFormed hothers named_nil hr h.tree.get?_root
    (by rw [dropLast_retiredPlace]; exact hp.parent)
    (fun hunder => retiredPlace_ne_nil [] n (List.prefix_nil.1 hunder)) hp.retired_no_file
  rw [moveIn, Host.run_bind, Host.run_ask, answer_present hp.wellFormed named_nil]
  show ∃ e h', Host.run disturbed h
    (Program.ask (.isDirectory (Path.ofPlace [])) >>= _) = _ ∧ _
  rw [Host.run_bind, Host.run_ask, answer_isDirectory hp.wellFormed named_nil h.tree.get?_root]
  show ∃ e h', Host.run disturbed h
    (replaceTarget log (Path.ofPlace (stagedPlace [] n)) (Path.ofPlace [])) = _ ∧ _
  rw [replaceTarget, retiredPath_stagedPlace, Host.run_bind, Host.run_ask, Host.answer]
  generalize h.rename disturbed (Path.ofPlace []) (Path.ofPlace (retiredPlace [] n)) = answer
    at hretire ⊢
  cases hretire with
  | done calm outside free moved wellFormed => exact absurd List.nil_prefix outside
  | refused f why => exact ⟨_, _, rfl, hp.wellFormed, rfl, .inl rfl⟩
  | overtaken reason disturbance free flat_target frame wellFormed =>
    exact ⟨_, _, rfl, wellFormed, rfl, .inr ⟨reason, _, disturbance, flat_target, frame⟩⟩

theorem run_moveIn (log : Log.Threshold) {n : Nat} (hp : Prepared h d n)
    (hothers : Host.PlainOthers disturbed) (hd : Named d) :
    ∃ result h', h.run disturbed
        (moveIn log (Path.ofPlace (stagedPlace d n)) (Path.ofPlace d)) = (result, h') ∧
      MovedIn disturbed h h' d n result := by
  by_cases hroot : d = []
  · subst hroot
    obtain ⟨e, h', hmove, hwf, hkept⟩ := run_moveIn_root log hp hothers
    refine ⟨_, h', hmove, hwf, fun he => ?_, fun x hx => absurd List.nil_prefix hx, ?_,
      (fun hok => by cases hok), fun _ _ hne => absurd rfl hne, fun _ => hkept⟩
    · have hmore := hkept.1
      omega
    · rcases hkept.2 with hsame | ⟨reason, files, hover, -⟩
      · exact .inl (by rw [hsame]; exact hp.retired_free)
      · exact .inr ⟨reason, files, hover⟩
  rw [moveIn, Host.run_bind, Host.run_ask, answer_present hp.wellFormed hd]
  cases hget : h.tree.get? d with
  | none =>
    have hsd := apart_staged_destination hroot n
    have hrd := apart_retired_destination hroot n
    have hsr := apart_staged_retired d n n
    have hn : h.renames + 1 ≠ h.renames + 3 := by omega
    have hswap := Host.renamed_rename hp.wellFormed hothers (named_stagedPlace hd n) hd hp.staged
      hp.parent hsd.2 (by rw [hget]; simp)
    show ∃ result h', Host.run disturbed h
      (Program.ask (.rename (Path.ofPlace (stagedPlace d n)) (Path.ofPlace d)) >>= _) = _ ∧ _
    rw [Host.run_bind, Host.run_ask, Host.answer]
    generalize h.rename disturbed (Path.ofPlace (stagedPlace d n)) (Path.ofPlace d) = answer at hswap ⊢
    cases hswap with
    | done calm outside free moved wellFormed =>
      refine ⟨_, _, rfl, .of_arrived hroot wellFormed (Nat.succ_ne_self _)
        (fun x hdx hsx _ => moved.get?_of_apart hsx hdx) (fun x => ?_) moved.below_target
        (moved.below_source hsd)⟩
      rw [moved.below_other hsr hrd.symm]
      exact hp.retired_free x
    | refused f why => exact ⟨_, _, rfl, .of_refused hp hroot⟩
    | overtaken reason disturbance free flat_target frame wellFormed =>
      exact ⟨_, _, rfl, .of_failed hroot wellFormed (fun he => absurd he (Nat.succ_ne_self _))
        (fun x hdx _ _ => frame x hdx) (.inr ⟨_, _, disturbance⟩)
        (.kept (.of_flat (Nat.lt_succ_self _) (le_refl _) disturbance flat_target) (not_failsTwice hn))⟩
  | some entry =>
    show ∃ result h', Host.run disturbed h
      (Program.ask (.isDirectory (Path.ofPlace d)) >>= _) = _ ∧ _
    rw [Host.run_bind, Host.run_ask, answer_isDirectory hp.wellFormed hd hget]
    cases entry with
    | file text =>
      have hn : h.renames ≠ h.renames + 3 := by omega
      exact ⟨_, h, rfl, .of_failed hroot hp.wellFormed (fun _ => rfl) (fun _ _ _ _ => rfl)
        (.inl hp.retired_free) (.kept (.of_below rfl) (not_failsTwice hn))⟩
    | directory => exact run_replaceTarget log hp hothers hd hroot hget

/-! ### The whole publication -/

theorem prepared_of_isStaged {h₁ : Host} {n : Nat} {artifacts : List Artifact}
    (hs : IsStaged h h₁ d n artifacts) (hdir : h.tree.get? d.dropLast = some .directory) :
    Prepared h₁ d n where
  wellFormed := hs.wellFormed
  parent := by
    rw [hs.frame _ (not_below_dropLast (stagedPlace_ne_nil d n) (dropLast_stagedPlace d n))]
    exact hdir
  staged := Tree.get?_of_below_flat hs.staged
  retired_free := hs.retired

theorem below_of_way {t : Tree} (hway : Tree.WithWay h.tree d.dropLast t) :
    t.below d = h.tree.below d := by
  by_cases hroot : d = []
  · subst hroot
    refine funext fun x => ?_
    rcases hway x with hsame | ⟨hnone, hunder, -⟩
    · exact hsame
    · rw [List.prefix_nil.1 hunder] at hnone
      cases hnone
  · exact hway.below_eq (not_below_dropLast hroot rfl)

/-- How a publication of artifacts ends: before they were staged, with their directory moved in, or with
that directory removed. -/
inductive Published (disturbed : Nat → Option Disturbance) (h h' : Host) (d : Place)
    (artifacts : List Artifact) : Except PublicationError (List String) → Prop
  | unstaged {t : Tree} (e : PublicationError) (way : Tree.WithWay h.tree d.dropLast t)
      (same : ∀ x, h'.tree.get? x = t.get? x) (renames : h'.renames = h.renames) :
      Published disturbed h h' d artifacts (.error e)
  | arrived {t : Tree} {h₁ h₂ : Host} {n : Nat} (way : Tree.WithWay h.tree d.dropLast t)
      (staged : IsStaged { h with tree := t } h₁ d n artifacts)
      (moved : MovedIn disturbed h₁ h₂ d n (.ok ())) (tree : h'.tree = h₂.tree) :
      Published disturbed h h' d artifacts (.ok (artifacts.map Artifact.name))
  | removed {t : Tree} {h₁ h₂ : Host} {n : Nat} (e : PublicationError)
      (way : Tree.WithWay h.tree d.dropLast t) (staged : IsStaged { h with tree := t } h₁ d n artifacts)
      (moved : MovedIn disturbed h₁ h₂ d n (.error e))
      (tree : ∀ x, h'.tree.get? x = if stagedPlace d n <+: x then none else h₂.tree.get? x)
      (renames : h'.renames = h₂.renames) : Published disturbed h h' d artifacts (.error e)

theorem run_publishAt (log : Log.Threshold) {artifacts : List Artifact} (ht : h.tree.WellFormed)
    (hothers : Host.PlainOthers disturbed) (hd : Named d)
    (hnames : ∀ a ∈ artifacts, IsArtifactName a.name) :
    ∃ result h', h.run disturbed (publishAt log (Path.ofPlace d) artifacts) = (result, h') ∧
      Published disturbed h h' d artifacts result := by
  obtain ⟨hwf, hway, hmade⟩ := Tree.makeDirectories_spec h.directory ht hd.dropLast
  rw [publishAt, Host.run_bind, Host.run_ask, Path.parent_ofPlace, Host.answer]
  generalize h.tree.makeDirectories h.directory (Path.ofPlace d.dropLast) = way at hwf hway hmade ⊢
  obtain ⟨result, t₀⟩ := way
  cases result with
  | error f => exact ⟨_, _, rfl, .unstaged _ hway (fun _ => rfl) rfl⟩
  | ok =>
    have hdir : t₀.get? d.dropLast = some .directory := hmade rfl
    show ∃ result h', Host.run disturbed { h with tree := t₀ }
      (stage log (Path.ofPlace d) artifacts >>= _) = _ ∧ _
    obtain ⟨result, h₁, hstage, ⟨n, rfl, hs⟩ | ⟨⟨e, rfl⟩, hrenames, hsame⟩⟩ :=
      run_stage (h := { h with tree := t₀ }) disturbed log hwf hd hdir hnames
    · rw [Host.run_bind, hstage]
      show ∃ result h', Host.run disturbed h₁
        (moveIn log (Path.ofPlace (stagedPlace d n)) (Path.ofPlace d) >>= _) = _ ∧ _
      obtain ⟨result, h₂, hmove, hmoved⟩ := run_moveIn log (prepared_of_isStaged hs hdir) hothers hd
      rw [Host.run_bind, hmove]
      cases result with
      | ok =>
        obtain ⟨lines, hlog⟩ := run_log (h := h₂) disturbed log logName .debug
          ["published " ++ countText artifacts ++ " to " ++ (Path.ofPlace d).text]
        refine ⟨_, { h₂ with printed := lines }, ?_, .arrived hway hs hmoved rfl⟩
        show Host.run disturbed h₂ (Program.log log logName .debug
          ["published " ++ countText artifacts ++ " to " ++ (Path.ofPlace d).text] >>= fun _ =>
            (pure (.ok (artifacts.map Artifact.name)) :
              Program (Except PublicationError (List String)))) = _
        rw [Host.run_bind, hlog]
        rfl
      | error e =>
        obtain ⟨t, hremove, -, hget⟩ :=
          run_remove disturbed hmoved.wellFormed (named_stagedPlace hd n) (stagedPlace_ne_nil d n)
        refine ⟨_, { h₂ with tree := t }, ?_, .removed e hway hs hmoved hget rfl⟩
        show Host.run disturbed h₂
          (Program.ask (.remove (Path.ofPlace (stagedPlace d n))) >>= _) = _
        rw [Host.run_bind, hremove]
        rfl
    · rw [Host.run_bind, hstage]
      exact ⟨_, h₁, rfl, .unstaged e hway hsame hrenames⟩

theorem run_publish_ofText (disturbed : Nat → Option Disturbance) (log : Log.Threshold) (h : Host)
    (destination : String) (artifacts : List Artifact) :
    h.run disturbed (publish log (.ofText destination) artifacts) =
      h.run disturbed (publishAt log (Path.ofPlace (placeOf h destination)) artifacts) := by
  rw [publish, Host.run_bind, Host.run_ask]
  rfl

end MemoryCompiler.Rtl.Publication

import Mathlib
import MemoryCompiler.Proofs.CommandLine.Jobs

/-!
# Listed templates

A document is accepted as a templates document exactly when its templates are records
(`ofDocument_eq_ok_iff`), and each of them is found under the name that starts its line of the list. A
reference says by its ending whether it is a template at all: one that ends like a document file is the path
of a file, whatever the templates are called (`resolve_listed`). A record under the name of the parent is no
template, but its fields can be found behind them.
-/

namespace MemoryCompiler

open Files Files.Host

/-! ### Templates of a document -/

namespace TemplateSet

variable {d : Document} {t : TemplateSet} {name : String}

theorem entryOf_eq_ok_iff {field : String × Document} {entry : String × List (String × Document)} :
    entryOf field = .ok entry ↔ field = (entry.1, .record entry.2) := by
  obtain ⟨name, value⟩ := field
  obtain ⟨name', fields⟩ := entry
  cases value with
  | record fs => simp [entryOf]
  | undefined | null | boolean | number | integer | text | list => simp [entryOf]

theorem mapM_entryOf_eq_ok_iff {fields : List (String × Document)}
    {entries : List (String × List (String × Document))} :
    fields.mapM entryOf = .ok entries ↔ fields = entries.map fun e => (e.1, .record e.2) := by
  induction fields generalizing entries with
  | nil =>
    cases entries with
    | nil => exact iff_of_true rfl rfl
    | cons e es => exact iff_of_false (fun h => by cases h) (fun h => by cases h)
  | cons f fields ih =>
    rw [List.mapM_cons, bind_eq_ok_iff]
    constructor
    · rintro ⟨e, he, hrest⟩
      obtain ⟨es, hes, hok⟩ := bind_eq_ok_iff.1 hrest
      cases hok
      rw [entryOf_eq_ok_iff.1 he, ih.1 hes]
      rfl
    · intro h
      cases entries with
      | nil => cases h
      | cons e es =>
        rw [List.map_cons, List.cons.injEq] at h
        exact ⟨e, entryOf_eq_ok_iff.2 h.1, bind_eq_ok_iff.2 ⟨es, ih.2 h.2, rfl⟩⟩

theorem ofDocument_eq_ok_iff : ofDocument d = .ok t ↔ ∃ named,
    d.field "example_configs" = .record (named.map fun e => (e.1, .record e.2)) ∧ t = ofEntries named := by
  rw [ofDocument]
  cases d.field "example_configs" with
  | record fields =>
    dsimp only
    rw [bind_eq_ok_iff]
    constructor
    · rintro ⟨named, hnamed, hok⟩
      cases hok
      exact ⟨named, by rw [mapM_entryOf_eq_ok_iff.1 hnamed], rfl⟩
    · rintro ⟨named, hfields, rfl⟩
      exact ⟨named, mapM_entryOf_eq_ok_iff.2 (Document.record.inj hfields), rfl⟩
  | undefined | null | boolean | number | integer | text | list =>
    exact iff_of_false (fun h => by cases h) fun ⟨_, h, _⟩ => by cases h

section entries

variable {named : List (String × List (String × Document))}

theorem lookup_records (name : String) :
    (named.map fun e => (e.1, Document.record e.2)).lookup name = (named.lookup name).map .record := by
  induction named with
  | nil => rfl
  | cons e es ih =>
    rw [List.map_cons, List.lookup_cons, List.lookup_cons]
    cases name == e.1 with
    | true => rfl
    | false => exact ih

theorem names_ofEntries : (ofEntries named).names = (named.map Prod.fst).filter fun n => n != parentName := by
  rw [names, ofEntries, List.filter_map]
  rfl

theorem mem_names_ofEntries :
    name ∈ (ofEntries named).names ↔ name ≠ parentName ∧ ∃ fields, named.lookup name = some fields := by
  rw [names_ofEntries, List.mem_filter, bne_iff_ne, and_comm, ← Option.ne_none_iff_exists',
    ne_eq (named.lookup name), List.lookup_eq_none_iff]
  refine and_congr_right fun _ => ?_
  constructor
  · intro hmem hnone
    obtain ⟨e, he, rfl⟩ := List.mem_map.1 hmem
    exact bne_iff_ne.1 (hnone e he) rfl
  · intro hsome
    by_contra hnot
    exact hsome fun e he => bne_iff_ne.2 fun heq => hnot (List.mem_map.2 ⟨e, he, heq.symm⟩)

theorem lookup_entries (hname : name ≠ parentName) :
    (ofEntries named).entries.lookup name = named.lookup name := by
  rw [ofEntries, Tree.lookup_filter fun n => n != parentName, if_pos (bne_iff_ne.2 hname)]

end entries

theorem get?_of_mem_names (ht : ofDocument d = .ok t) (hname : name ∈ t.names) :
    t.get? name = some ((d.field "example_configs").field name) ∧
      ((d.field "example_configs").field name).isRecord = true := by
  obtain ⟨named, hd, rfl⟩ := ofDocument_eq_ok_iff.1 ht
  obtain ⟨hparent, fields, hlookup⟩ := mem_names_ofEntries.1 hname
  have hvalue : (d.field "example_configs").field name = .record fields := by
    rw [hd, Document.field, Document.fieldIn, lookup_records, hlookup]
    rfl
  rw [hvalue, get?, lookup_entries hparent, hlookup]
  exact ⟨rfl, rfl⟩

theorem behind_eq_undefined (hparent : name ≠ parentName)
    (hfield : Document.fieldIn t.inherited name = .undefined) : t.behind name = .undefined := by
  rw [Document.fieldIn] at hfield
  rw [behind]
  cases hvalue : t.inherited.lookup name with
  | none => exact if_neg hparent
  | some value => rwa [hvalue] at hfield

/-- A name that is no template's is not found, unless something stands behind the templates under it. -/
theorem get?_eq_none (ht : ofDocument d = .ok t) (hname : name ∉ t.names) (hparent : name ≠ parentName)
    (hbehind : ((d.field "example_configs").field parentName).field name = .undefined) :
    t.get? name = none := by
  obtain ⟨named, hd, rfl⟩ := ofDocument_eq_ok_iff.1 ht
  have hlookup : named.lookup name = none :=
    Option.eq_none_iff_forall_ne_some.2 fun fields h => hname (mem_names_ofEntries.2 ⟨hparent, fields, h⟩)
  have hinherited : Document.fieldIn (ofEntries named).inherited name = .undefined := by
    rw [hd, Document.field, Document.fieldIn, lookup_records] at hbehind
    rw [ofEntries]
    cases hfields : named.lookup parentName with
    | none => rfl
    | some fields =>
      rw [hfields] at hbehind
      exact hbehind
  rw [get?, lookup_entries hparent, hlookup, behind_eq_undefined hparent hinherited]
  rfl

theorem lines_start (t : TemplateSet) :
    List.Forall₂ (fun line name => ∃ rest, line = name ++ ": " ++ rest) t.lines t.names := by
  rw [lines, names, List.forall₂_map_left_iff, List.forall₂_map_right_iff, List.forall₂_same]
  intro e he
  refine ⟨(Document.fieldIn e.2 "depth").plain ++ "x" ++ (Document.fieldIn e.2 "width").plain ++ ", " ++
    (Document.fieldIn e.2 "banks").plain ++ " banks, " ++ (Document.fieldIn e.2 "process_node").plain ++ "nm", ?_⟩
  simp only [line, String.append_assoc]

/-- The templates have the names of the document in its order, all but that of the parent. -/
theorem names_of_ofDocument (ht : ofDocument d = .ok t) : ∃ fields,
    d.field "example_configs" = .record fields ∧
      t.names = (fields.map Prod.fst).filter fun n => n != parentName := by
  obtain ⟨named, hd, rfl⟩ := ofDocument_eq_ok_iff.1 ht
  refine ⟨_, hd, ?_⟩
  rw [names_ofEntries, List.map_map]
  rfl

end TemplateSet

/-! ### References -/

namespace ConfigSource

variable {s ending : String}

/-- The text ends like the name of a document file, in small or capital letters. -/
def EndsLikeFile (s : String) : Prop :=
  ∃ ending ∈ [".json", ".yaml", ".yml"], ending.toList <:+ s.toList.map Char.toLower

instance : DecidablePred EndsLikeFile := fun s =>
  inferInstanceAs (Decidable (∃ ending ∈ [".json", ".yaml", ".yml"], ending.toList <:+ s.toList.map Char.toLower))

theorem isSome_withoutEnding? :
    (withoutEnding? ending s).isSome = true ↔ ending.toList <:+ s.toList.map Char.toLower := by
  have hdrop : (s.toList.drop (s.length - ending.length)).map Char.toLower =
      (s.toList.map Char.toLower).drop ((s.toList.map Char.toLower).length - ending.toList.length) := by
    rw [List.map_drop, List.length_map, String.length_toList, String.length_toList]
  rw [List.suffix_iff_eq_drop, ← hdrop, withoutEnding?]
  split_ifs with h
  · exact iff_of_true rfl h.symm
  · exact iff_of_false Bool.false_ne_true fun he => h he.symm

theorem isSome_fileStem? : (fileStem? s).isSome = true ↔ EndsLikeFile s := by
  simp only [fileStem?, Option.isSome_or, Bool.or_eq_true, isSome_withoutEnding?, EndsLikeFile,
    List.mem_cons, List.not_mem_nil, or_false, exists_eq_or_imp, exists_eq_left, or_assoc]

theorem exists_splitOn_append {tail : List Char} (htail : '/' ∉ tail) (cs : List Char) :
    ∃ init piece, (cs ++ tail).splitOn '/' = init ++ [piece ++ tail] := by
  induction cs with
  | nil =>
    exact ⟨[], [], List.splitOn_eq_singleton htail⟩
  | cons c cs ih =>
    obtain ⟨init, piece, hsplit⟩ := ih
    rw [List.cons_append, List.splitOn_cons_eq_if_modifyHead, hsplit]
    split_ifs
    · exact ⟨[] :: init, piece, rfl⟩
    · cases init with
      | nil => exact ⟨[], c :: piece, rfl⟩
      | cons first init => exact ⟨(c :: first) :: init, piece, rfl⟩

theorem EndsLikeFile.name (h : EndsLikeFile s) : EndsLikeFile (Path.ofText s).name := by
  obtain ⟨ending, hmem, low, hlow⟩ := h
  obtain ⟨cs, tail, hsplit, -, htail⟩ := List.map_eq_append_iff.1 hlow.symm
  have hplain : '/' ∉ ending.toList ∧ ending.toList ≠ [] := by
    have hall : ∀ e ∈ [".json", ".yaml", ".yml"], '/' ∉ e.toList ∧ e.toList ≠ [] := by decide
    exact hall ending hmem
  have hslash : '/' ∉ tail := fun hin => hplain.1 (htail ▸ List.mem_map_of_mem hin)
  have hne : tail ≠ [] := by
    rintro rfl
    exact hplain.2 htail.symm
  obtain ⟨init, piece, hpieces⟩ := exists_splitOn_append hslash cs
  have hlast : String.ofList (piece ++ tail) ≠ "" := by
    rw [ne_eq, String.ofList_eq_empty_iff, List.append_eq_nil_iff]
    exact fun h => hne h.2
  have hname : (Path.ofText s).name = String.ofList (piece ++ tail) := by
    show ((Path.splitParts s).getLast?).getD "" = _
    rw [Path.splitParts, hsplit, hpieces, List.map_append, List.filter_append, List.map_singleton,
      List.filter_singleton, decide_eq_true hlast, cond_true, List.getLast?_concat]
    rfl
  refine ⟨ending, hmem, ?_⟩
  rw [hname, String.toList_ofList, List.map_append, htail]
  exact List.suffix_append _ _

theorem isSome_fileName? : (fileName? s).isSome = true ↔ EndsLikeFile s := by
  rw [fileName?]
  cases hstem : fileStem? s with
  | none => exact iff_of_false Bool.false_ne_true fun h => by simp [← isSome_fileStem?, hstem] at h
  | some stem =>
    have h : EndsLikeFile s := isSome_fileStem?.1 (by rw [hstem]; rfl)
    exact iff_of_true (isSome_fileStem?.2 h.name) h

/-! ### Resolving -/

section resolve

variable {yaml : String → Option Document} {d : Document} {t : TemplateSet} {h : Host} {file : String}
  {disturbed : Nat → Option Disturbance}

theorem run_bindExcept {α β ε : Type} {p : ExceptT ε Program α} {f : α → ExceptT ε Program β} :
    (h.run disturbed (p >>= f).run) =
      match h.run disturbed p.run with
      | (.ok a, h') => h'.run disturbed (f a).run
      | (.error e, h') => (.error e, h') := by
  show h.run disturbed (p.run >>= _) = _
  rw [run_bind]
  rcases h.run disturbed p.run with ⟨answer, h'⟩
  cases answer with
  | ok a => rfl
  | error e => rfl

theorem answer_readDocument : (h.run disturbed (readDocument yaml file).run).1 =
    match h.tree.read h.directory (.ofText file) with
    | .error _ => .error (.unreadable file)
    | .ok text =>
      match documentOf? yaml file text with
      | some d => .ok d
      | none => .error (.malformed file) := by
  have hrun : h.run disturbed (ExceptT.lift (Program.ask (.read (.ofText file))) :
      ExceptT SourceError Program _).run = (.ok (h.tree.read h.directory (.ofText file)), h) := rfl
  rw [readDocument, run_bindExcept, hrun]
  dsimp only
  cases h.tree.read h.directory (.ofText file) with
  | error f => rfl
  | ok text =>
    dsimp only
    cases documentOf? yaml file text with
    | some d => rfl
    | none => rfl

theorem run_readDocument (hd : (h.run disturbed (readDocument yaml file).run).1 = .ok d) :
    h.run disturbed (readDocument yaml file).run = (.ok d, h) := by
  have hreads := reads_readDocument yaml file disturbed h
  rw [hreads] at hd ⊢
  exact Prod.ext hd rfl

theorem run_loadTemplates (hd : (h.run disturbed (readDocument yaml file).run).1 = .ok d)
    (ht : TemplateSet.ofDocument d = .ok t) :
    h.run disturbed (loadTemplates yaml (some file)).run = (.ok t, h) := by
  rw [loadTemplates, run_bindExcept, run_readDocument hd]
  dsimp only
  rw [ht]
  rfl

theorem run_resolve_template (hd : (h.run disturbed (readDocument yaml file).run).1 = .ok d)
    (ht : TemplateSet.ofDocument d = .ok t) {reference : String} (hending : ¬ EndsLikeFile reference) :
    h.run disturbed (resolveWith yaml reference (some file)).run = (ofTemplate t reference, h) := by
  have hnone : fileName? reference = none :=
    Option.not_isSome_iff_eq_none.1 fun hsome => hending (isSome_fileName?.1 hsome)
  rw [resolveWith, hnone]
  dsimp only
  rw [run_bindExcept, run_loadTemplates hd ht]
  dsimp only
  cases ofTemplate t reference with
  | ok source => rfl
  | error e => rfl

theorem run_resolve_file (templates : Option String) {reference stem : String}
    (hstem : fileName? reference = some stem) :
    h.run disturbed (resolveWith yaml reference templates).run =
      ((h.run disturbed (readDocument yaml reference).run).1.map (ConfigSource.mk stem), h) := by
  rw [resolveWith, hstem]
  dsimp only
  rw [run_bindExcept, reads_readDocument yaml reference disturbed h]
  cases answerIn h.tree h.directory (readDocument yaml reference).run with
  | ok raw => rfl
  | error e => rfl

/-- A text of templates. One is named like a document file, and one like the parent of the others. -/
def oddlyNamedText : String :=
  "\x7b\"example_configs\":\x7b\"a.json\":\x7b\x7d,\"__proto__\":\x7b\"hidden\":\x7b\x7d\x7d," ++
    "\"plain\":\x7b\"ecc_enable\":true\x7d\x7d\x7d"

def oddlyNamed : Document :=
  .record [("example_configs",
    .record [("a.json", .record []), ("__proto__", .record [("hidden", .record [])]),
      ("plain", .record [("ecc_enable", .boolean true)])])]

def oddlyNamedSet : TemplateSet :=
  ⟨[("a.json", []), ("plain", [("ecc_enable", .boolean true)])], [("hidden", .record [])]⟩

/-- A host with nothing but a file of these templates. -/
def templatesHost : Host := .start ⟨[(["t.json"], .file oddlyNamedText)]⟩ []

theorem read_templatesHost (disturbed : Nat → Option Disturbance) :
    (templatesHost.run disturbed (readDocument Document.Yaml.parse? "t.json").run).1 = .ok oddlyNamed := by
  have hparse : documentOf? Document.Yaml.parse? "t.json" oddlyNamedText = some oddlyNamed := by cbv
  have hread : templatesHost.tree.read templatesHost.directory (.ofText "t.json") = .ok oddlyNamedText := rfl
  rw [answer_readDocument, hread]
  dsimp only
  rw [hparse]

theorem ofDocument_oddlyNamed : TemplateSet.ofDocument oddlyNamed = .ok oddlyNamedSet :=
  TemplateSet.ofDocument_eq_ok_iff.2
    ⟨[("a.json", []), ("__proto__", [("hidden", .record [])]), ("plain", [("ecc_enable", .boolean true)])],
      rfl, rfl⟩

end resolve

end ConfigSource

end MemoryCompiler

import Mathlib.Data.List.GetD
import MemoryCompiler.Proofs.Process.Tables

/-!
# Sessions of overrides

A merge of overrides copies the table it starts from and patches the copy entry by entry, in place.
A session keeps all the tables that merges have made, in the order of their making, and the one in
use: a merge that succeeds puts its copy in use, one that fails leaves the table in use where it is.

Seen from outside a merge is the function `ProcessTable.merge` (`TableStore.exists_merge`), and a session
is a run of merges (`Session.table_run`). What patches keep holds of every table of a session
(`Session.all_run`), soundness with its margin of the supply voltage in particular
(`Session.run_sound`).
-/

namespace MemoryCompiler

open ProcessTable (applyPatch applyPatches)

/-- Tables by reference: a reference is a position. -/
abbrev TableStore := List ProcessTable

namespace TableStore

def get (s : TableStore) (r : Nat) : ProcessTable := s.getD r ⟨[]⟩

/-- Applies the entries of a document to the table of a reference, up to the first violation. -/
def patch (r : Nat) : TableStore → List (String × Document) → TableStore × Option OverrideError
  | s, [] => (s, none)
  | s, entry :: rest =>
    match applyPatch (s.get r) entry with
    | .error e => (s, some e)
    | .ok t => patch r (s.set r t) rest

/-- Merges a document into a copy of a table and yields the reference of the copy. -/
def merge (s : TableStore) (base : Nat) (overrides : Document) :
    TableStore × Except OverrideError Nat :=
  let copied := s ++ [s.get base]
  match overrides.field "process_nodes" with
  | .undefined | .null => (copied, .ok s.length)
  | .record entries =>
    match patch s.length copied entries with
    | (s', none) => (s', .ok s.length)
    | (s', some e) => (s', .error e)
  | other => (copied, .error (.notAMapping other))

/-- A property of tables that patches keep. -/
def Kept (P : ProcessTable → Prop) : Prop :=
  ∀ {t entry t'}, P t → applyPatch t entry = .ok t' → P t'

section fresh

variable {P : ProcessTable → Prop} (hP : Kept P) (s : TableStore)

theorem get_append_self (t : ProcessTable) : TableStore.get (s ++ [t]) s.length = t := by
  rw [get, List.getD_append_right _ _ _ _ le_rfl, Nat.sub_self]
  rfl

theorem set_append_self (t t' : ProcessTable) : (s ++ [t]).set s.length t' = s ++ [t'] := by
  rw [List.set_append_right _ _ le_rfl, Nat.sub_self]
  rfl

include hP in
theorem exists_patch {t : ProcessTable} (ht : P t) (entries : List (String × Document)) :
    ∃ t', P t' ∧
      ((patch s.length (s ++ [t]) entries = (s ++ [t'], none) ∧ applyPatches t entries = .ok t') ∨
      ∃ e, patch s.length (s ++ [t]) entries = (s ++ [t'], some e) ∧
        applyPatches t entries = .error e) := by
  -- The patched table stands last all the time: an entry replaces it, and the others stay in front.
  induction entries generalizing t with
  | nil => exact ⟨t, ht, .inl ⟨rfl, rfl⟩⟩
  | cons entry rest ih =>
    rw [patch, applyPatches, get_append_self]
    cases hentry : applyPatch t entry with
    | error e => exact ⟨t, ht, .inr ⟨e, rfl, rfl⟩⟩
    | ok t' =>
      dsimp only
      rw [set_append_self]
      exact ih (hP ht hentry)

include hP in
theorem exists_merge {base : Nat} (ht : P (s.get base)) (overrides : Document) :
    ∃ t', P t' ∧
      ((s.merge base overrides = (s ++ [t'], .ok s.length) ∧
        (s.get base).merge overrides = .ok t') ∨
      ∃ e, s.merge base overrides = (s ++ [t'], .error e) ∧
        (s.get base).merge overrides = .error e) := by
  rw [merge, ProcessTable.merge]
  cases overrides.field "process_nodes" with
  | undefined | null => exact ⟨_, ht, .inl ⟨rfl, rfl⟩⟩
  | record entries =>
    obtain ⟨t', ht', ⟨hpatch, hpure⟩ | ⟨e, hpatch, hpure⟩⟩ := exists_patch hP s ht entries
    · refine ⟨t', ht', .inl ⟨?_, hpure⟩⟩
      dsimp only
      rw [hpatch]
    · refine ⟨t', ht', .inr ⟨e, ?_, hpure⟩⟩
      dsimp only
      rw [hpatch]
  | boolean | number | integer | text | list => exact ⟨_, ht, .inr ⟨_, rfl, rfl⟩⟩

end fresh

end TableStore

/-- The tables made so far and the reference of the one in use. -/
structure Session where
  tables : TableStore
  current : Nat

namespace Session

def table (s : Session) : ProcessTable := s.tables.get s.current

def merge (s : Session) (overrides : Document) : Session :=
  match s.tables.merge s.current overrides with
  | (tables, .ok r) => ⟨tables, r⟩
  | (tables, .error _) => ⟨tables, s.current⟩

/-- Merges documents one after the other, from the built-in table on. -/
def run (documents : List Document) : Session := documents.foldl merge ⟨[.standard], 0⟩

/-- The table in use is one of the session, and all of them have the property. -/
structure All (P : ProcessTable → Prop) (s : Session) : Prop where
  current_lt : s.current < s.tables.length
  forall_mem : ∀ t ∈ s.tables, P t

section step

variable {P : ProcessTable → Prop} {s : Session}

theorem All.table (h : s.All P) : P s.table := by
  rw [Session.table, TableStore.get, List.getD_eq_getElem _ _ h.current_lt]
  exact h.forall_mem _ (List.getElem_mem h.current_lt)

theorem All.merge (hP : TableStore.Kept P) (h : s.All P) (overrides : Document) :
    (s.merge overrides).All P ∧ s.tables <+: (s.merge overrides).tables ∧
      (s.merge overrides).table = (s.table.merge overrides).toOption.getD s.table := by
  have hadded : ∀ {t : ProcessTable}, P t → ∀ t' ∈ s.tables ++ [t], P t' := by
    intro t ht t' ht'
    rcases List.mem_append.1 ht' with ht' | ht'
    · exact h.forall_mem t' ht'
    · rwa [List.mem_singleton.1 ht']
  have hlength : ∀ t, (s.tables ++ [t]).length = s.tables.length + 1 := fun t => by
    rw [List.length_append, List.length_singleton]
  obtain ⟨t', ht', ⟨hmerge, hpure⟩ | ⟨e, hmerge, hpure⟩⟩ :=
    TableStore.exists_merge hP s.tables h.table overrides
  · have hresult : s.merge overrides = ⟨s.tables ++ [t'], s.tables.length⟩ := by
      rw [Session.merge, hmerge]
    rw [hresult, show s.table.merge overrides = .ok t' from hpure]
    refine ⟨⟨?_, hadded ht'⟩, List.prefix_append _ _, TableStore.get_append_self _ t'⟩
    rw [hlength]
    exact Nat.lt_succ_self _
  · have hresult : s.merge overrides = ⟨s.tables ++ [t'], s.current⟩ := by
      rw [Session.merge, hmerge]
    rw [hresult, show s.table.merge overrides = .error e from hpure]
    refine ⟨⟨?_, hadded ht'⟩, List.prefix_append _ _, ?_⟩
    · rw [hlength]
      exact Nat.lt_succ_of_lt h.current_lt
    · exact List.getD_append _ _ _ _ h.current_lt

end step

theorem all_run {P : ProcessTable → Prop} (hP : TableStore.Kept P) (hstart : P .standard)
    (documents : List Document) : (run documents).All P := by
  have hall : ∀ s : Session, s.All P → (documents.foldl merge s).All P := by
    intro s hs
    induction documents generalizing s with
    | nil => exact hs
    | cons overrides rest ih => exact ih _ (hs.merge hP overrides).1
  refine hall _ ⟨Nat.zero_lt_one, fun t ht => ?_⟩
  rwa [List.mem_singleton.1 ht]

/-- The table in use is what the merges of the documents make of the built-in one, those that fail
left out. -/
theorem table_run (documents : List Document) : (run documents).table =
    documents.foldl (fun t overrides => (t.merge overrides).toOption.getD t) .standard := by
  have htable : ∀ s : Session, s.All (fun _ => True) → (documents.foldl merge s).table =
      documents.foldl (fun t overrides => (t.merge overrides).toOption.getD t) s.table := by
    intro s hs
    induction documents generalizing s with
    | nil => rfl
    | cons overrides rest ih =>
      obtain ⟨hnext, -, hmerged⟩ := hs.merge (fun _ _ => trivial) overrides
      rw [List.foldl_cons, List.foldl_cons, ih _ hnext, hmerged]
  exact htable _ ⟨Nat.zero_lt_one, fun _ _ => trivial⟩

/-- The tables of a session are sound and keep the built-in nodes. -/
def Fit (t : ProcessTable) : Prop := t.Sound ∧ ProcessTable.standard.nodes ⊆ t.nodes

theorem kept_fit : TableStore.Kept Fit := fun ht h =>
  ⟨ht.1.applyPatch h, List.Subset.trans ht.2 (ProcessTable.nodes_applyPatch h)⟩

/-- Over all sessions: the table in use is what the successful merges make of the built-in one; every
table is sound and has the built-in nodes; a further merge, whether it succeeds or fails, leaves all
tables as they are; and a supply voltage that is a number and passes the check at a node leaves a drive
voltage above zero. -/
theorem run_sound (documents : List Document) :
    (run documents).table =
      documents.foldl (fun t overrides => (t.merge overrides).toOption.getD t) .standard ∧
    (run documents).table ∈ (run documents).tables ∧
    (∀ t ∈ (run documents).tables, t.Sound ∧ ProcessTable.standard.nodes ⊆ t.nodes) ∧
    (∀ overrides, (run documents).tables <+: ((run documents).merge overrides).tables) ∧
    ∀ t ∈ (run documents).tables, ∀ p ∈ t.entries, ∀ c : Config, c.voltage.isNaN = false →
      c.checkVoltage p.2 = .ok () → 0 < c.voltage - p.2.vTh := by
  have hall := all_run kept_fit ⟨ProcessTable.sound_standard, List.Subset.refl _⟩ documents
  refine ⟨table_run documents, ?_, hall.forall_mem,
    fun overrides => (hall.merge kept_fit overrides).2.1, ?_⟩
  · rw [table, TableStore.get, List.getD_eq_getElem _ _ hall.current_lt]
    exact List.getElem_mem hall.current_lt
  · intro t ht p hp c hnan hcheck
    exact ((hall.forall_mem t ht).1 p hp).2.zero_lt_drive hcheck hnan

/-- A node patched twice under two spellings, at the lower end of its new window. -/
theorem run_sound_twoSpellings : ∃ n, (run [.record [("process_nodes", .record
    [("7", .record [("v_min", .text "0.5")]), ("7.0", .record [("v_th", .number 0.3)])])]]).table.find? 7
      = some n ∧ n.vMin = 0.5 ∧ n.vTh = 0.3 ∧ 0 < (0.5 : Float) - n.vTh := by
  have hfind : (run [.record [("process_nodes", .record
      [("7", .record [("v_min", .text "0.5")]), ("7.0", .record [("v_th", .number 0.3)])])]]).table.find? 7
        = some ⟨0.027, 0.08, 90, 0.03, 0.12, 0.002, 0.06, 0.3, 0.035, 0.06, 0.5, 0.9, 0.75⟩ := by
    decide +kernel
  refine ⟨_, hfind, rfl, rfl, ?_⟩
  exact (run_sound _).2.2.2.2 _ (run_sound _).2.1 _ (ProcessTable.mem_of_find? hfind)
    ⟨8, 8, 1, 0.5, 7, false, false, false, false⟩ (by decide +kernel) rfl

/-- NaN passes the check: it is not outside of a window. But no difference with it is above zero. -/
theorem checkVoltage_admits_nan : ∃ n, (run []).table.find? 7 = some n ∧
    (⟨8, 8, 1, Float.ofBits 0x7FF8000000000000, 7, false, false, false, false⟩ : Config).checkVoltage n =
      .ok () ∧ ¬ 0 < Float.ofBits 0x7FF8000000000000 - n.vTh := by
  refine ⟨_, rfl, ?_, ?_⟩
  · rfl
  · decide +kernel

end Session

end MemoryCompiler

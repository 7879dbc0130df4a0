import MemoryCompiler.Proofs.Process.Tables

/-!
# One patch of a process table

An entry of an override document patches one node. `ProcessTable.Admitted` says what such an entry
has to be like, and `ProcessTable.write` what becomes of the table
(`ProcessTable.applyPatch_eq_ok_iff`). Both look at the table only at the node of the entry
(`admitted_congr`, `write_congr`), so that entries of different nodes do not see each other
(`write_comm`).
-/

namespace MemoryCompiler

open Document (fieldIn)
open Decimal (not_le_iff)

/-! ### Refusals -/

/-- The complaint names an entry of the document: as its value, or within its field. -/
def OverrideError.Names (e : OverrideError) (key : String) : Prop :=
  e.complaint.field = "process_nodes" ∧ e.complaint.value = .text key ∨
    ∃ rest, e.complaint.field = "process_nodes." ++ key ++ rest

theorem ProcessNode.build_eq_error {ε α : Type} {f : Constant → Except ε α} {e : ε}
    (h : build f = .error e) : ∃ c, f c = .error e := by
  by_contra hnone
  rw [not_exists] at hnone
  simp only [build, bind_eq_error_iff, hnone, false_or] at h
  obtain ⟨_, -, _, -, _, -, _, -, _, -, _, -, _, -, _, -, _, -, _, -, _, -, _, -, _, -, h⟩ := h
  cases h

/-! ### Fields in another order -/

theorem fieldIn_perm {fields fields' : List (String × Document)} (h : fields.Perm fields')
    (hnodup : (fields.map Prod.fst).Nodup) (name : String) :
    fieldIn fields name = fieldIn fields' name := by
  suffices hlookup : fields.lookup name = fields'.lookup name by rw [fieldIn, fieldIn, hlookup]
  induction h with
  | nil => rfl
  | cons f _ ih =>
    rw [List.map_cons, List.nodup_cons] at hnodup
    rw [List.lookup_cons, List.lookup_cons, ih hnodup.2]
  | swap f g rest =>
    have hne : g.1 ≠ f.1 := by
      simp only [List.map_cons, List.nodup_cons, List.mem_cons, not_or] at hnodup
      exact hnodup.1.1
    rw [List.lookup_cons, List.lookup_cons, List.lookup_cons, List.lookup_cons]
    by_cases hg : name = g.1
    · have hf : (name == f.1) = false := by simpa [hg] using hne
      rw [hf]
    · have hg' : (name == g.1) = false := by simpa using hg
      rw [hg']
  | trans h₁ _ ih₁ ih₂ => exact (ih₁ hnodup).trans (ih₂ ((h₁.map Prod.fst).nodup_iff.1 hnodup))

namespace ProcessTable

variable {t t' : ProcessTable} {node : Nat}

/-! ### Insertion -/

theorem insert_comm {other : Nat} (t : ProcessTable) (n k : ProcessNode Float) (h : node ≠ other) :
    (t.insert node n).insert other k = (t.insert other k).insert node n := by
  rcases t with ⟨es⟩
  suffices hentries : insertEntry other k (insertEntry node n es) =
      insertEntry node n (insertEntry other k es) from congrArg ProcessTable.mk hentries
  induction es with
  | nil => grind [insertEntry]
  | cons e rest ih => grind [insertEntry]

theorem insert_insert_self (t : ProcessTable) (n k : ProcessNode Float) :
    (t.insert node n).insert node k = t.insert node k := by
  rcases t with ⟨es⟩
  suffices hentries : insertEntry node k (insertEntry node n es) = insertEntry node k es from
    congrArg ProcessTable.mk hentries
  induction es with
  | nil => grind [insertEntry]
  | cons e rest ih => grind [insertEntry]

/-! ### What an entry says -/

/-- A key denotes a node when it is a numeral of that positive whole number. -/
def Denotes (key : String) (node : Nat) : Prop :=
  ∃ x, (Document.text key).finite? = some x ∧ Decimal.wholeValue x = some (node : Int) ∧ 0 < node

/-- The node that a patch stands for: the values given and, where none is, those before. -/
def patchedNode (fields : List (String × Document)) (before : Option (ProcessNode Float)) :
    ProcessNode Float :=
  .ofFn fun c => ((fieldIn fields c.name).finite? <|> before.map (·.get c)).getD 0

/-- A patch that, with the constants before, has a number for every constant. -/
structure Supplies (fields : List (String × Document)) (before : Option (ProcessNode Float)) :
    Prop where
  positive : ∀ c : Constant, fieldIn fields c.name ≠ .undefined →
    ∃ x, (fieldIn fields c.name).finite? = some x ∧ 0 < x
  complete : before = none → ∀ c : Constant, fieldIn fields c.name ≠ .undefined

/-- A patch that goes with the constants before: it names constants only, and the node it stands
for has a supply window above its threshold. -/
structure Fits (fields : List (String × Document)) (before : Option (ProcessNode Float)) : Prop
    extends Supplies fields before where
  known : ∀ f ∈ fields, ∃ c : Constant, f.1 = c.name
  threshold : (patchedNode fields before).vTh < (patchedNode fields before).vMin
  window : (patchedNode fields before).vMin ≤ (patchedNode fields before).vMax

/-- An entry that a table takes: a patch of a node, fit for the constants of that node. -/
def Admitted (t : ProcessTable) (entry : String × Document) : Prop :=
  ∃ node fields, Denotes entry.1 node ∧ entry.2 = .record fields ∧ Fits fields (t.find? node)

/-- No two keys denote the same node. -/
def Distinct (keys : List String) : Prop :=
  keys.Pairwise fun k l => ∀ node, Denotes k node → ¬ Denotes l node

def Finite (t : ProcessTable) : Prop :=
  ∀ node n, t.find? node = some n → ∀ c, (n.get c).isFinite = true

theorem nodeOfKey?_eq_some_iff {key : String} : nodeOfKey? key = some node ↔ Denotes key node := by
  rw [nodeOfKey?, Option.bind_eq_bind, Option.bind_eq_some_iff]
  refine exists_congr fun x => and_congr_right fun _ => ?_
  constructor
  · intro h
    split at h
    · next n hvalue =>
      split_ifs at h with hpos
      cases h
      exact ⟨hvalue, hpos⟩
    · cases h
  · rintro ⟨hvalue, hpos⟩
    rw [hvalue]
    exact if_pos hpos

theorem Denotes.unique {key : String} {other : Nat} (h : Denotes key node)
    (hother : Denotes key other) : node = other :=
  Option.some.inj ((nodeOfKey?_eq_some_iff.2 h).symm.trans (nodeOfKey?_eq_some_iff.2 hother))

/-! ### One patch -/

section patch

variable {key : String} {fields : List (String × Document)} {before : Option (ProcessNode Float)}

theorem unknownConstant?_eq_none_iff :
    unknownConstant? fields = none ↔ ∀ f ∈ fields, ∃ c : Constant, f.1 = c.name := by
  rw [unknownConstant?, List.find?_eq_none]
  refine forall_congr' fun f => forall_congr' fun _ => ?_
  rw [Bool.not_eq_true', Bool.not_eq_false, List.contains_iff_mem, List.mem_map]
  exact ⟨fun ⟨c, _, h⟩ => ⟨c, h.symm⟩, fun ⟨c, h⟩ => ⟨c, c.mem_all, h.symm⟩⟩

theorem patchedConstant_eq_ok_iff {c : Constant} {x : Float} :
    patchedConstant key fields before c = .ok x ↔
      (fieldIn fields c.name ≠ .undefined → ∃ y, (fieldIn fields c.name).finite? = some y ∧ 0 < y) ∧
      (before = none → fieldIn fields c.name ≠ .undefined) ∧ (patchedNode fields before).get c = x := by
  rw [patchedNode, ProcessNode.get_ofFn]
  simp only [patchedConstant]
  cases hgiven : fieldIn fields c.name with
  | undefined => cases before <;> simp [Document.isUndefined, Document.finite?]
  | null | boolean | integer | list | record => simp [Document.isUndefined, Document.finite?]
  | number | text =>
    simp only [Document.isUndefined, Bool.false_eq_true, if_false]
    split
    · next y hread =>
      have hle : y ≤ 0 ↔ ¬ 0 < y := by
        rw [← not_le_iff (isFinite_of_finite? hread) (by decide +kernel), not_not]
      by_cases hpos : 0 < y <;> simp [hread, hle, hpos]
    · next hread => simp [hread]

/-- Each constant of the patched node is the value given, or else the one before. -/
theorem Supplies.get_patchedNode (h : Supplies fields before) (c : Constant) :
    (fieldIn fields c.name ≠ .undefined →
      (fieldIn fields c.name).finite? = some ((patchedNode fields before).get c)) ∧
    (fieldIn fields c.name = .undefined →
      ∃ m, before = some m ∧ (patchedNode fields before).get c = m.get c) := by
  rw [patchedNode, ProcessNode.get_ofFn]
  refine ⟨fun hgiven => ?_, fun hnone => ?_⟩
  · obtain ⟨x, hread, -⟩ := h.positive c hgiven
    rw [hread]
    rfl
  · cases before with
    | none => exact absurd hnone (h.complete rfl c)
    | some m =>
      rw [hnone]
      exact ⟨m, rfl, rfl⟩

theorem Supplies.isFinite (h : Supplies fields before)
    (hbefore : ∀ n ∈ before, ∀ c, (n.get c).isFinite = true) (c : Constant) :
    ((patchedNode fields before).get c).isFinite = true := by
  by_cases hgiven : fieldIn fields c.name = .undefined
  · obtain ⟨n, hn, hc⟩ := (h.get_patchedNode c).2 hgiven
    rw [hc]
    exact hbefore n hn c
  · exact isFinite_of_finite? ((h.get_patchedNode c).1 hgiven)

theorem build_patchedConstant_eq_ok_iff {n : ProcessNode Float} :
    ProcessNode.build (patchedConstant key fields before) = .ok n ↔
      Supplies fields before ∧ patchedNode fields before = n := by
  simp only [ProcessNode.build_eq_ok_iff, patchedConstant_eq_ok_iff, forall_and]
  constructor
  · rintro ⟨hpositive, hcomplete, hget⟩
    exact ⟨⟨hpositive, forall_comm.1 hcomplete⟩, ProcessNode.ext_get hget⟩
  · rintro ⟨h, rfl⟩
    exact ⟨h.positive, forall_comm.1 h.complete, fun _ => rfl⟩

theorem patchedConstant_eq_error {c : Constant} {e : OverrideError}
    (h : patchedConstant key fields before c = .error e) : e.Names key := by
  simp only [patchedConstant] at h
  have hrest : ∃ rest, "process_nodes." ++ key ++ "." ++ c.name = "process_nodes." ++ key ++ rest :=
    ⟨"." ++ c.name, String.append_assoc⟩
  split_ifs at h
  · cases before with
    | none =>
      cases h
      exact .inr hrest
    | some n => cases h
  · split at h
    · split_ifs at h
      cases h
      exact .inr hrest
    · cases h
      exact .inr hrest

theorem patchNode_eq_error {e : OverrideError} (h : patchNode key fields before = .error e) :
    e.Names key := by
  rw [patchNode] at h
  split at h
  · next name _ _ =>
    cases h
    exact .inr ⟨"." ++ name, String.append_assoc⟩
  · split at h
    · next hbuild =>
      cases h
      obtain ⟨c, hc⟩ := ProcessNode.build_eq_error hbuild
      exact patchedConstant_eq_error hc
    · split_ifs at h
      cases h
      exact .inr ⟨".v_min", rfl⟩

theorem patchNode_eq_ok_iff {n : ProcessNode Float}
    (hbefore : ∀ n ∈ before, ∀ c, (n.get c).isFinite = true) :
    patchNode key fields before = .ok n ↔ Fits fields before ∧ patchedNode fields before = n := by
  constructor
  · intro h
    rw [patchNode] at h
    split at h
    · cases h
    · next hknown =>
      split at h
      · cases h
      · next m hbuild =>
        obtain ⟨hsupplies, rfl⟩ := build_patchedConstant_eq_ok_iff.1 hbuild
        split_ifs at h with hvolts
        cases h
        obtain ⟨hthreshold, hwindow⟩ :=
          (ProcessNode.hasWindow_iff (hsupplies.isFinite hbefore)).1 hvolts
        exact ⟨⟨hsupplies, unknownConstant?_eq_none_iff.1 hknown, hthreshold, hwindow⟩, rfl⟩
  · rintro ⟨h, rfl⟩
    have hbuild : ProcessNode.build (patchedConstant key fields before) = _ :=
      build_patchedConstant_eq_ok_iff.2 ⟨h.toSupplies, rfl⟩
    rw [patchNode, unknownConstant?_eq_none_iff.2 h.known]
    simp only [hbuild]
    exact if_pos ((ProcessNode.hasWindow_iff (h.isFinite hbefore)).2 ⟨h.threshold, h.window⟩)

theorem patchedNode_patchedNode :
    patchedNode fields (some (patchedNode fields before)) = patchedNode fields before := by
  refine ProcessNode.ext_get fun c => ?_
  simp only [patchedNode, ProcessNode.get_ofFn, Option.map_some]
  cases (fieldIn fields c.name).finite? <;> rfl

theorem Fits.again (h : Fits fields before) : Fits fields (some (patchedNode fields before)) where
  known := h.known
  positive := h.positive
  complete := nofun
  threshold := by rw [patchedNode_patchedNode]; exact h.threshold
  window := by rw [patchedNode_patchedNode]; exact h.window

end patch

/-! ### One entry -/

/-- Writes the node that an entry names: what the entry makes of the constants in `old`. -/
def write (old t : ProcessTable) (entry : String × Document) : ProcessTable :=
  match nodeOfKey? entry.1, entry.2 with
  | some node, .record fields => t.insert node (patchedNode fields (old.find? node))
  | _, _ => t

section entry

variable {old : ProcessTable} {entry : String × Document}

theorem write_eq {fields : List (String × Document)} (hnode : Denotes entry.1 node)
    (hfields : entry.2 = .record fields) (old t : ProcessTable) :
    old.write t entry = t.insert node (patchedNode fields (old.find? node)) := by
  rw [write, nodeOfKey?_eq_some_iff.2 hnode, hfields]

theorem write_cases (old : ProcessTable) (entry : String × Document) :
    (∃ node n, Denotes entry.1 node ∧ ∀ t, old.write t entry = t.insert node n) ∨
      ∀ t, old.write t entry = t := by
  cases hnode : nodeOfKey? entry.1 with
  | none => exact .inr fun t => by rw [write, hnode]
  | some node =>
    cases hpatch : entry.2 with
    | record fields =>
      have hdenotes := nodeOfKey?_eq_some_iff.1 hnode
      exact .inl ⟨node, _, hdenotes, fun t => write_eq hdenotes hpatch old t⟩
    | undefined | null | boolean | number | integer | text | list =>
      exact .inr fun t => by rw [write, hnode, hpatch]

theorem find?_write_of_not_denotes (h : ¬ Denotes entry.1 node) :
    (old.write t entry).find? node = t.find? node := by
  rcases write_cases old entry with ⟨other, n, hother, hwrite⟩ | hwrite
  · rw [hwrite]
    refine find?_insert_of_ne t n ?_
    rintro rfl
    exact h hother
  · rw [hwrite]

/-- An entry sees the table at its own node only. -/
theorem write_congr (h : ∀ node, Denotes entry.1 node → old.find? node = t'.find? node) :
    old.write t entry = t'.write t entry := by
  rw [write, write]
  split
  · next node fields hnode _ => rw [h node (nodeOfKey?_eq_some_iff.1 hnode)]
  · rfl

theorem admitted_congr (h : ∀ node, Denotes entry.1 node → t.find? node = t'.find? node) :
    Admitted t entry ↔ Admitted t' entry := by
  refine exists_congr fun node => exists_congr fun fields => and_congr_right fun hnode => ?_
  rw [h node hnode]

theorem Admitted.fits {fields : List (String × Document)} (h : Admitted t entry)
    (hnode : Denotes entry.1 node) (hfields : entry.2 = .record fields) :
    Fits fields (t.find? node) := by
  obtain ⟨other, fields', hother, hfields', hfits⟩ := h
  cases hnode.unique hother
  cases hfields.symm.trans hfields'
  exact hfits

theorem applyPatch_eq_ok_iff (ht : t.Finite) :
    applyPatch t entry = .ok t' ↔ Admitted t entry ∧ t.write t entry = t' := by
  constructor
  · intro h
    obtain ⟨node, fields, n, hnode, hfields, hpatch, rfl⟩ := applyPatch_eq_ok h
    have hdenotes := nodeOfKey?_eq_some_iff.1 hnode
    obtain ⟨hfits, rfl⟩ := (patchNode_eq_ok_iff (ht node)).1 hpatch
    exact ⟨⟨node, fields, hdenotes, hfields, hfits⟩, write_eq hdenotes hfields t t⟩
  · rintro ⟨⟨node, fields, hnode, hfields, hfits⟩, rfl⟩
    have hpatch : patchNode entry.1 fields (t.find? node) = _ :=
      (patchNode_eq_ok_iff (ht node)).2 ⟨hfits, rfl⟩
    rw [applyPatch, nodeOfKey?_eq_some_iff.2 hnode, write_eq hnode hfields]
    simp only [hfields, hpatch]

theorem applyPatch_eq_error {e : OverrideError} (h : applyPatch t entry = .error e) :
    e.Names entry.1 := by
  rw [applyPatch] at h
  split at h
  · cases h
    exact .inl ⟨rfl, rfl⟩
  · split at h
    · split at h
      · next hpatch =>
        cases h
        exact patchNode_eq_error hpatch
      · cases h
    · cases h
      exact .inr ⟨"", String.append_empty.symm⟩

theorem Finite.write (ht : t.Finite) (h : Admitted t entry) : (t.write t entry).Finite := by
  obtain ⟨node, fields, hnode, hfields, hfits⟩ := h
  rw [write_eq hnode hfields]
  intro other n hn
  by_cases hother : other = node
  · rw [hother, find?_insert, Option.some.injEq] at hn
    rw [← hn]
    exact hfits.isFinite (ht node)
  · rw [find?_insert_of_ne t _ hother] at hn
    exact ht other n hn

theorem write_comm {other : String × Document}
    (h : ∀ node, Denotes entry.1 node → ¬ Denotes other.1 node) (old t : ProcessTable) :
    old.write (old.write t entry) other = old.write (old.write t other) entry := by
  rcases write_cases old entry with ⟨node, n, hnode, hwrite⟩ | hwrite
  · rcases write_cases old other with ⟨m, k, hm, hwrite'⟩ | hwrite'
    · have hne : node ≠ m := by
        rintro rfl
        exact h node hnode hm
      rw [hwrite, hwrite, hwrite', hwrite', insert_comm t n k hne]
    · rw [hwrite', hwrite']
  · rw [hwrite, hwrite]

theorem write_write_self (old t : ProcessTable) (entry : String × Document) :
    old.write (old.write t entry) entry = old.write t entry := by
  rcases write_cases old entry with ⟨node, n, -, hwrite⟩ | hwrite
  · rw [hwrite, hwrite, insert_insert_self]
  · rw [hwrite, hwrite]

end entry

end ProcessTable

end MemoryCompiler

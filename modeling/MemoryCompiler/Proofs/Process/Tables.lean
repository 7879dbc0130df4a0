import MemoryCompiler.Estimate.Timing
import MemoryCompiler.Process.Override
import MemoryCompiler.Proofs.Decimal.Order

/-!
# Sound process tables

A table is sound when its nodes are positive, all constants are positive finite numbers and every
supply window lies above the threshold of its node. The built-in table is sound
(`ProcessTable.sound_standard`), and so is all that overrides make of a sound table
(`ProcessTable.Sound.applyPatch`, `ProcessTable.Sound.merge`), which keeps the nodes it had. A supply
voltage inside the window of a sound node leaves a drive voltage above zero
(`ProcessNode.Sound.zero_lt_drive`).
-/

namespace MemoryCompiler

open Decimal (not_lt_iff not_le_iff)

/-! ### Nodes -/

/-- The constants of a node fit the models. -/
structure ProcessNode.Sound (n : ProcessNode Float) : Prop where
  finite : ∀ c, (n.get c).isFinite = true
  positive : ∀ c, 0 < n.get c
  threshold : n.vTh < n.vMin
  window : n.vMin ≤ n.vMax

namespace ProcessNode

variable {n : ProcessNode Float}

theorem hasWindow_iff (h : ∀ c, (n.get c).isFinite = true) :
    ProcessTable.hasWindow n = true ↔ n.vTh < n.vMin ∧ n.vMin ≤ n.vMax := by
  have hth : n.vTh.isFinite = true := h .vTh
  have hmin : n.vMin.isFinite = true := h .vMin
  have hmax : n.vMax.isFinite = true := h .vMax
  rw [ProcessTable.hasWindow, Bool.not_eq_true', Bool.or_eq_false_iff, decide_eq_false_iff_not,
    decide_eq_false_iff_not, not_lt_iff hmax hmin, not_le_iff hmin hth]
  exact and_comm

/-- The drive voltage is positive at every supply voltage that the check lets through and that is a
number. -/
theorem Sound.zero_lt_drive (hn : n.Sound) {c : Config} (hcheck : c.checkVoltage n = .ok ())
    (hnan : c.voltage.isNaN = false) : 0 < c.voltage - n.vTh := by
  have hinside : ¬ c.voltage < n.vMin ∧ ¬ n.vMax < c.voltage := by
    rw [Config.checkVoltage] at hcheck
    split_ifs at hcheck with h
    simpa using h
  have hmin : n.vMin.isFinite = true := hn.finite .vMin
  have hth : n.vTh.isFinite = true := hn.finite .vTh
  have hfinite := Decimal.isFinite_of_between hmin (hn.finite .vMax) hnan hinside.1 hinside.2
  have habove := Decimal.lt_trans_le hth hmin hfinite hn.threshold
    ((not_lt_iff hfinite hmin).1 hinside.1)
  exact Decimal.zero_lt_sub hfinite hth habove

end ProcessNode

/-! ### Tables -/

namespace ProcessTable

/-- Every entry of a table has a positive node and sound constants. -/
def Sound (t : ProcessTable) : Prop := ∀ p ∈ t.entries, 0 < p.1 ∧ p.2.Sound

variable {t t' : ProcessTable} {node : Nat} {n : ProcessNode Float}

theorem mem_of_find? (h : t.find? node = some n) : (node, n) ∈ t.entries := by
  obtain ⟨before, after, hentries, -⟩ := List.lookup_eq_some_iff.1 h
  rw [hentries]
  exact List.mem_append_right before List.mem_cons_self

theorem mem_insertEntry {es : List (Nat × ProcessNode Float)} {p : Nat × ProcessNode Float}
    (h : p ∈ insertEntry node n es) : p = (node, n) ∨ p ∈ es := by
  induction es with
  | nil => exact .inl (List.mem_singleton.1 h)
  | cons e rest ih =>
    simp only [insertEntry] at h
    split_ifs at h with hlt heq
    · exact List.mem_cons.1 h
    · rcases List.mem_cons.1 h with rfl | h
      · exact .inl rfl
      · exact .inr (List.mem_cons_of_mem e h)
    · rcases List.mem_cons.1 h with rfl | h
      · exact .inr List.mem_cons_self
      · exact (ih h).imp_right (List.mem_cons_of_mem e)

theorem nodes_insertEntry {es : List (Nat × ProcessNode Float)} :
    es.map Prod.fst ⊆ (insertEntry node n es).map Prod.fst := by
  induction es with
  | nil => exact List.nil_subset _
  | cons e rest ih =>
    simp only [insertEntry]
    split_ifs with hlt heq
    · exact List.subset_cons_self _ _
    · rw [List.map_cons, List.map_cons, heq]
      exact List.Subset.refl _
    · exact List.cons_subset_cons _ ih

theorem Sound.insert (ht : t.Sound) (hnode : 0 < node) (hn : n.Sound) : (t.insert node n).Sound := by
  intro p hp
  rcases mem_insertEntry hp with rfl | hp
  · exact ⟨hnode, hn⟩
  · exact ht p hp

theorem sound_standard : standard.Sound := by
  have hdecided : ∀ p ∈ standard.entries, 0 < p.1 ∧
      (∀ c ∈ Constant.all, (p.2.get c).isFinite = true ∧ 0 < p.2.get c) ∧
      p.2.vTh < p.2.vMin ∧ p.2.vMin ≤ p.2.vMax := by decide +kernel
  intro p hp
  obtain ⟨hpos, hconstants, hthreshold, hwindow⟩ := hdecided p hp
  exact ⟨hpos, fun c => (hconstants c c.mem_all).1, fun c => (hconstants c c.mem_all).2, hthreshold, hwindow⟩

/-! ### Overrides -/

section overrides

variable {key : String} {fields : List (String × Document)} {before : Option (ProcessNode Float)}

theorem isFinite_of_finite? {v : Document} {x : Float} (h : v.finite? = some x) :
    x.isFinite = true := by
  cases v with
  | number y =>
    simp only [Document.finite?] at h
    split_ifs at h with hy
    cases h
    exact hy
  | text s =>
    simp only [Document.finite?] at h
    split_ifs at h
    exact (Option.filter_eq_some_iff.1 h).2
  | undefined | null | boolean | integer | list | record => cases h

theorem nodeOfKey?_pos (h : nodeOfKey? key = some node) : 0 < node := by
  rw [nodeOfKey?, Option.bind_eq_bind, Option.bind_eq_some_iff] at h
  obtain ⟨x, -, h⟩ := h
  split at h
  · split_ifs at h with hpos
    cases h
    exact hpos
  · cases h

theorem patchedConstant_sound {c : Constant} {x : Float} (hbefore : ∀ n ∈ before, n.Sound)
    (h : patchedConstant key fields before c = .ok x) : x.isFinite = true ∧ 0 < x := by
  simp only [patchedConstant] at h
  split_ifs at h with hgiven
  · cases before with
    | none => cases h
    | some n =>
      cases h
      have hn := hbefore n rfl
      exact ⟨hn.finite c, hn.positive c⟩
  · split at h
    · next y hy =>
      split_ifs at h with hle
      cases h
      have hfinite := isFinite_of_finite? hy
      exact ⟨hfinite, (not_le_iff hfinite (by decide +kernel)).1 hle⟩
    · cases h

theorem patchNode_sound (hbefore : ∀ n ∈ before, n.Sound)
    (h : patchNode key fields before = .ok n) : n.Sound := by
  rw [patchNode] at h
  split at h
  · cases h
  · split at h
    · cases h
    · next m hbuild =>
      split_ifs at h with hwindow
      cases h
      have hconstants : ∀ c, (n.get c).isFinite = true ∧ 0 < n.get c := fun c =>
        patchedConstant_sound hbefore (ProcessNode.build_eq_ok_iff.1 hbuild c)
      have hvolts := (ProcessNode.hasWindow_iff fun c => (hconstants c).1).1 hwindow
      exact ⟨fun c => (hconstants c).1, fun c => (hconstants c).2, hvolts.1, hvolts.2⟩

theorem applyPatch_eq_ok {entry : String × Document} (h : applyPatch t entry = .ok t') :
    ∃ node fields n, nodeOfKey? entry.1 = some node ∧ entry.2 = .record fields ∧
      patchNode entry.1 fields (t.find? node) = .ok n ∧ t' = t.insert node n := by
  rw [applyPatch] at h
  split at h
  · cases h
  · next node hnode =>
    split at h
    · next fields hfields =>
      split at h
      · cases h
      · next n hn =>
        cases h
        exact ⟨node, fields, n, hnode, hfields, hn, rfl⟩
    · cases h

theorem Sound.applyPatch {entry : String × Document} (ht : t.Sound)
    (h : applyPatch t entry = .ok t') : t'.Sound := by
  obtain ⟨node, fields, n, hnode, -, hn, rfl⟩ := applyPatch_eq_ok h
  exact ht.insert (nodeOfKey?_pos hnode)
    (patchNode_sound (fun m hm => (ht _ (mem_of_find? hm)).2) hn)

theorem nodes_applyPatch {entry : String × Document} (h : applyPatch t entry = .ok t') :
    t.nodes ⊆ t'.nodes := by
  obtain ⟨node, fields, n, -, -, -, rfl⟩ := applyPatch_eq_ok h
  exact nodes_insertEntry

theorem Sound.applyPatches {entries : List (String × Document)} (ht : t.Sound)
    (h : applyPatches t entries = .ok t') : t'.Sound := by
  induction entries generalizing t with
  | nil =>
    cases h
    exact ht
  | cons entry rest ih =>
    rw [ProcessTable.applyPatches] at h
    split at h
    · cases h
    · next hentry => exact ih (ht.applyPatch hentry) h

theorem Sound.merge {overrides : Document} (ht : t.Sound) (h : t.merge overrides = .ok t') :
    t'.Sound := by
  unfold ProcessTable.merge at h
  split at h
  · cases h
    exact ht
  · cases h
    exact ht
  · exact ht.applyPatches h
  · cases h

theorem Sound.merges {documents : List Document} (ht : t.Sound)
    (h : documents.foldlM ProcessTable.merge t = .ok t') : t'.Sound := by
  induction documents generalizing t with
  | nil =>
    cases h
    exact ht
  | cons overrides rest ih =>
    rw [List.foldlM_cons, bind_eq_ok_iff] at h
    obtain ⟨s, hmerge, hrest⟩ := h
    exact ih (ht.merge hmerge) hrest

end overrides

end ProcessTable

end MemoryCompiler

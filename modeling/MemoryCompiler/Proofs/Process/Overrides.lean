import MemoryCompiler.Proofs.Process.Patches

/-!
# What overrides do to a table

A document whose keys denote distinct nodes is either refused or writes every node that it names,
each from the constants that were there in the beginning (`ProcessTable.applyPatches_eq_ok_iff`).
The order in which it lists nodes and constants is therefore without effect, and so is merging it
again; `ProcessTable.merge_semantics` puts these facts together.
-/

namespace MemoryCompiler

open Document (fieldIn)

namespace ProcessTable

variable {t t' : ProcessTable} {node : Nat}

/-! ### All entries -/

section entries

variable {entries others : List (String × Document)}

/-- The table with every entry written, each from the constants in `t`. -/
def overridden (t : ProcessTable) (entries : List (String × Document)) : ProcessTable :=
  entries.foldl t.write t

theorem applyPatches_cons_eq_ok_iff {entry : String × Document} :
    applyPatches t (entry :: entries) = .ok t' ↔
      ∃ s, applyPatch t entry = .ok s ∧ applyPatches s entries = .ok t' := by
  rw [applyPatches]
  cases applyPatch t entry <;> simp

theorem applyPatches_append_eq_ok_iff :
    applyPatches t (entries ++ others) = .ok t' ↔
      ∃ s, applyPatches t entries = .ok s ∧ applyPatches s others = .ok t' := by
  induction entries generalizing t with
  | nil => simp [applyPatches]
  | cons entry rest ih =>
    rw [List.cons_append]
    simp only [applyPatches_cons_eq_ok_iff, ih]
    grind

theorem find?_write_of_distinct {entry later : String × Document} {old : ProcessTable}
    (hdistinct : Distinct ((entry :: entries).map Prod.fst)) (hlater : later ∈ entries)
    (hnode : Denotes later.1 node) : (old.write t entry).find? node = t.find? node := by
  rw [List.map_cons, Distinct, List.pairwise_cons] at hdistinct
  exact find?_write_of_not_denotes fun h =>
    hdistinct.1 later.1 (List.mem_map_of_mem hlater) node h hnode

/-- A document of distinct nodes is taken when the table takes each of its entries, and then every
entry is written over the constants that were there in the beginning. -/
theorem applyPatches_eq_ok_iff (ht : t.Finite) (hdistinct : Distinct (entries.map Prod.fst)) :
    applyPatches t entries = .ok t' ↔
      (∀ entry ∈ entries, Admitted t entry) ∧ t.overridden entries = t' := by
  -- The table `s` that the entries ahead have made agrees with `t` at the nodes still to come.
  have run : ∀ {s : ProcessTable}, s.Finite →
      (∀ entry ∈ entries, ∀ node, Denotes entry.1 node → s.find? node = t.find? node) →
      (applyPatches s entries = .ok t' ↔
        (∀ entry ∈ entries, Admitted t entry) ∧ entries.foldl t.write s = t') := by
    induction entries with
    | nil => simp [applyPatches]
    | cons entry rest ih =>
      intro s hs hsame
      have hhead := hsame entry List.mem_cons_self
      have hrest : Distinct (rest.map Prod.fst) := (List.pairwise_cons.1 hdistinct).2
      rw [List.foldl_cons, List.forall_mem_cons, ← admitted_congr hhead,
        ← write_congr hhead (t := s), applyPatches_cons_eq_ok_iff]
      have htail (hadmitted : Admitted s entry) := ih hrest (hs.write hadmitted)
        fun later hlater node hnode => (find?_write_of_distinct hdistinct hlater hnode).trans
          (hsame later (List.mem_cons_of_mem entry hlater) node hnode)
      constructor
      · rintro ⟨u, hentry, hrun⟩
        obtain ⟨hadmitted, rfl⟩ := (applyPatch_eq_ok_iff hs).1 hentry
        obtain ⟨hall, hfold⟩ := (htail hadmitted).1 hrun
        exact ⟨⟨hadmitted, hall⟩, hfold⟩
      · rintro ⟨⟨hadmitted, hall⟩, hfold⟩
        exact ⟨_, (applyPatch_eq_ok_iff hs).2 ⟨hadmitted, rfl⟩, (htail hadmitted).2 ⟨hall, hfold⟩⟩
  exact run ht fun _ _ _ _ => rfl

theorem applyPatches_eq_error (ht : t.Finite) (hdistinct : Distinct (entries.map Prod.fst))
    {e : OverrideError} (h : applyPatches t entries = .error e) :
    ∃ entry ∈ entries, ¬ Admitted t entry ∧ e.Names entry.1 := by
  induction entries generalizing t with
  | nil => cases h
  | cons entry rest ih =>
    have hrest : Distinct (rest.map Prod.fst) := (List.pairwise_cons.1 hdistinct).2
    rw [applyPatches] at h
    split at h
    · next hentry =>
      cases h
      refine ⟨entry, List.mem_cons_self, fun hadmitted => ?_, applyPatch_eq_error hentry⟩
      rw [(applyPatch_eq_ok_iff ht).2 ⟨hadmitted, rfl⟩] at hentry
      cases hentry
    · next hentry =>
      obtain ⟨hadmitted, rfl⟩ := (applyPatch_eq_ok_iff ht).1 hentry
      obtain ⟨later, hlater, hrefused, hnames⟩ := ih (ht.write hadmitted) hrest h
      rw [admitted_congr fun node hnode => find?_write_of_distinct hdistinct hlater hnode] at hrefused
      exact ⟨later, List.mem_cons_of_mem entry hlater, hrefused, hnames⟩

theorem overridden_perm (hperm : entries.Perm others) (hdistinct : Distinct (entries.map Prod.fst)) :
    t.overridden entries = t.overridden others := by
  have hcomm : ∀ x ∈ entries, ∀ y ∈ entries, ∀ s, t.write (t.write s x) y = t.write (t.write s y) x := by
    rw [Distinct, List.pairwise_map] at hdistinct
    have : Std.Symm fun x y => ∀ s, t.write (t.write s x) y = t.write (t.write s y) x :=
      ⟨fun _ _ h s => (h s).symm⟩
    exact fun x hx y hy => List.Pairwise.forall_of_forall (fun _ _ _ => rfl)
      (hdistinct.imp fun h s => write_comm h t s) hx hy
  exact hperm.foldl_eq' hcomm t

theorem Distinct.perm {keys keys' : List String} (h : Distinct keys) (hperm : keys.Perm keys') :
    Distinct keys' :=
  List.Perm.pairwise hperm h fun hkl node hl hk => hkl node hk hl

theorem find?_overridden_of_not_denotes (h : ∀ entry ∈ entries, ¬ Denotes entry.1 node) :
    (t.overridden entries).find? node = t.find? node := by
  have run : ∀ s : ProcessTable, (entries.foldl t.write s).find? node = s.find? node := by
    induction entries with
    | nil => exact fun _ => rfl
    | cons entry rest ih =>
      intro s
      rw [List.foldl_cons, ih fun later hlater => h later (List.mem_cons_of_mem entry hlater),
        find?_write_of_not_denotes (h entry List.mem_cons_self)]
  exact run t

/-- Each entry may be taken for the last one. -/
theorem overridden_eq_write {entry : String × Document} (hentry : entry ∈ entries)
    (hdistinct : Distinct (entries.map Prod.fst)) :
    ∃ s, t.overridden entries = t.write s entry := by
  obtain ⟨before, after, rfl⟩ := List.append_of_mem hentry
  have hperm : (before ++ entry :: after).Perm (before ++ after ++ [entry]) :=
    List.perm_middle.trans (List.perm_append_singleton entry (before ++ after)).symm
  refine ⟨t.overridden (before ++ after), ?_⟩
  rw [overridden_perm hperm hdistinct, overridden, List.foldl_append]
  rfl

theorem find?_overridden {entry : String × Document} {fields : List (String × Document)}
    (hentry : entry ∈ entries) (hdistinct : Distinct (entries.map Prod.fst))
    (hnode : Denotes entry.1 node) (hfields : entry.2 = .record fields) :
    (t.overridden entries).find? node = some (patchedNode fields (t.find? node)) := by
  obtain ⟨s, hlast⟩ := overridden_eq_write (t := t) hentry hdistinct
  rw [hlast, write_eq hnode hfields, find?_insert]

theorem applyPatches_overridden (ht : (t.overridden entries).Finite)
    (hdistinct : Distinct (entries.map Prod.fst)) (hall : ∀ entry ∈ entries, Admitted t entry) :
    applyPatches (t.overridden entries) entries = .ok (t.overridden entries) := by
  -- Taken for the last one, an entry finds its own constants in the table.
  have hagain : ∀ entry ∈ entries,
      applyPatch (t.overridden entries) entry = .ok (t.overridden entries) := by
    intro entry hentry
    obtain ⟨node, fields, hnode, hfields, hfits⟩ := hall entry hentry
    have hfound := find?_overridden (t := t) hentry hdistinct hnode hfields
    obtain ⟨s, hlast⟩ := overridden_eq_write (t := t) hentry hdistinct
    refine (applyPatch_eq_ok_iff ht).2 ⟨⟨node, fields, hnode, hfields, ?_⟩, ?_⟩
    · rw [hfound]
      exact hfits.again
    · rw [write_eq hnode hfields, hfound, patchedNode_patchedNode, ← write_eq hnode hfields t, hlast,
        write_write_self]
  have run : ∀ later ⊆ entries,
      applyPatches (t.overridden entries) later = .ok (t.overridden entries) := by
    intro later
    induction later with
    | nil => exact fun _ => rfl
    | cons entry rest ih =>
      intro hsub
      obtain ⟨hentry, hrest⟩ := List.cons_subset.1 hsub
      exact applyPatches_cons_eq_ok_iff.2 ⟨_, hagain entry hentry, ih hrest⟩
  exact run entries (List.Subset.refl entries)

end entries

/-! ### Documents that say the same -/

/-- A patch that gives the same constants in another order. -/
inductive SamePatch : Document → Document → Prop
  | refl (patch : Document) : SamePatch patch patch
  | reorder {fields fields' : List (String × Document)} (hnodup : (fields.map Prod.fst).Nodup)
      (hperm : fields.Perm fields') : SamePatch (.record fields) (.record fields')

/-- The same entries in another order, their constants in another order. -/
def Reordered (entries others : List (String × Document)) : Prop :=
  ∃ middle, entries.Perm middle ∧
    List.Forall₂ (fun a b => a.1 = b.1 ∧ SamePatch a.2 b.2) middle others

section documents

variable {entries others : List (String × Document)}

theorem fits_perm {fields fields' : List (String × Document)} {before : Option (ProcessNode Float)}
    (hnodup : (fields.map Prod.fst).Nodup) (hperm : fields.Perm fields') (h : Fits fields before) :
    Fits fields' before ∧ patchedNode fields before = patchedNode fields' before := by
  have hsame := fieldIn_perm hperm hnodup
  have hnode : patchedNode fields before = patchedNode fields' before := by
    simp only [patchedNode, hsame]
  refine ⟨⟨⟨?_, ?_⟩, fun f hf => h.known f (hperm.mem_iff.2 hf), ?_, ?_⟩, hnode⟩
  · simpa only [hsame] using h.positive
  · simpa only [hsame] using h.complete
  · rw [← hnode]
    exact h.threshold
  · rw [← hnode]
    exact h.window

theorem SamePatch.symm {patch patch' : Document} (h : SamePatch patch patch') :
    SamePatch patch' patch := by
  cases h with
  | refl => exact .refl patch
  | reorder hnodup hperm =>
    exact .reorder ((hperm.map Prod.fst).nodup_iff.1 hnodup) hperm.symm

theorem applyPatch_samePatch (ht : t.Finite) {key : String} {patch patch' : Document}
    (hpatch : SamePatch patch patch') :
    applyPatch t (key, patch) = .ok t' ↔ applyPatch t (key, patch') = .ok t' := by
  suffices hone : ∀ {p q : Document}, SamePatch p q → applyPatch t (key, p) = .ok t' →
      applyPatch t (key, q) = .ok t' from ⟨hone hpatch, hone hpatch.symm⟩
  intro p q hsame h
  cases hsame with
  | refl => exact h
  | @reorder given given' hnodup hperm =>
    obtain ⟨⟨node, fields, hnode, hfields, hfits⟩, hwrite⟩ := (applyPatch_eq_ok_iff ht).1 h
    cases hfields
    obtain ⟨hfits', hpatched⟩ := fits_perm hnodup hperm hfits
    have hold : t.write t (key, .record given) = t.insert node (patchedNode given (t.find? node)) :=
      write_eq hnode rfl t t
    have hnode' : Denotes (key, Document.record given').1 node := hnode
    have hnew : t.write t (key, .record given') = t.insert node (patchedNode given' (t.find? node)) :=
      write_eq hnode' rfl t t
    refine (applyPatch_eq_ok_iff ht).2 ⟨⟨node, given', hnode', rfl, hfits'⟩, ?_⟩
    rw [hnew, ← hpatched, ← hold, hwrite]

theorem applyPatches_samePatches (ht : t.Finite)
    (h : List.Forall₂ (fun a b => a.1 = b.1 ∧ SamePatch a.2 b.2) entries others) :
    applyPatches t entries = .ok t' ↔ applyPatches t others = .ok t' := by
  induction h generalizing t with
  | nil => rfl
  | @cons entry other _ _ hhead _ ih =>
    obtain ⟨key, patch⟩ := entry
    obtain ⟨key', patch'⟩ := other
    obtain ⟨rfl : key = key', hpatch⟩ := hhead
    rw [applyPatches_cons_eq_ok_iff, applyPatches_cons_eq_ok_iff]
    refine exists_congr fun s => ?_
    rw [← applyPatch_samePatch ht hpatch]
    refine and_congr_right fun hentry => ?_
    obtain ⟨hadmitted, rfl⟩ := (applyPatch_eq_ok_iff ht).1 hentry
    exact ih (ht.write hadmitted)

theorem applyPatches_perm (ht : t.Finite) (hperm : entries.Perm others)
    (hdistinct : Distinct (entries.map Prod.fst)) :
    applyPatches t entries = .ok t' ↔ applyPatches t others = .ok t' := by
  rw [applyPatches_eq_ok_iff ht hdistinct,
    applyPatches_eq_ok_iff ht (hdistinct.perm (hperm.map Prod.fst)), overridden_perm hperm hdistinct]
  simp only [hperm.mem_iff]

theorem Finite.applyPatches (ht : t.Finite) (h : applyPatches t entries = .ok t') : t'.Finite := by
  induction entries generalizing t with
  | nil =>
    cases h
    exact ht
  | cons entry rest ih =>
    obtain ⟨s, hentry, hrest⟩ := applyPatches_cons_eq_ok_iff.1 h
    obtain ⟨hadmitted, rfl⟩ := (applyPatch_eq_ok_iff ht).1 hentry
    exact ih (ht.write hadmitted) hrest

theorem merge_eq {doc : Document} (hdoc : doc.field "process_nodes" = .record entries) :
    t.merge doc = applyPatches t entries := by
  rw [merge, hdoc]

/-- What a document of distinct nodes does to a table of finite constants: whether it is taken,
what becomes of each constant, whom a refusal blames, and that neither order nor repetition
matters. -/
theorem merge_semantics (ht : t.Finite) {doc : Document}
    (hdoc : doc.field "process_nodes" = .record entries)
    (hdistinct : Distinct (entries.map Prod.fst)) :
    ((∃ t', t.merge doc = .ok t') ↔ ∀ entry ∈ entries, Admitted t entry) ∧
    (∀ t', t.merge doc = .ok t' →
      (∀ entry ∈ entries, ∀ node fields, Denotes entry.1 node → entry.2 = .record fields →
        ∃ n, t'.find? node = some n ∧ ∀ c : Constant,
          (fieldIn fields c.name ≠ .undefined → (fieldIn fields c.name).finite? = some (n.get c)) ∧
          (fieldIn fields c.name = .undefined →
            ∃ m, t.find? node = some m ∧ n.get c = m.get c)) ∧
      (∀ node, (∀ entry ∈ entries, ¬ Denotes entry.1 node) → t'.find? node = t.find? node) ∧
      t'.merge doc = .ok t') ∧
    ((¬ ∀ entry ∈ entries, Admitted t entry) →
      ∃ e, t.merge doc = .error e ∧ ∃ entry ∈ entries, ¬ Admitted t entry ∧ e.Names entry.1) ∧
    (∀ doc' others, doc'.field "process_nodes" = .record others → Reordered entries others →
      ∀ t', t.merge doc = .ok t' ↔ t.merge doc' = .ok t') ∧
    (∀ other others, other.field "process_nodes" = .record others →
      Distinct (entries.map Prod.fst ++ others.map Prod.fst) →
      ∀ t', (t.merge doc >>= fun s => s.merge other) = .ok t' ↔
        (t.merge other >>= fun s => s.merge doc) = .ok t') := by
  have hok (s : ProcessTable) :
      applyPatches t entries = .ok s ↔ (∀ entry ∈ entries, Admitted t entry) ∧ t.overridden entries = s :=
    applyPatches_eq_ok_iff ht hdistinct
  simp only [merge_eq hdoc]
  refine ⟨?_, ?_, ?_, ?_, ?_⟩
  · simp only [hok, exists_and_left, exists_eq', and_true]
  · intro t' h
    obtain ⟨hall, rfl⟩ := (hok t').1 h
    refine ⟨?_, fun node => find?_overridden_of_not_denotes,
      applyPatches_overridden (ht.applyPatches h) hdistinct hall⟩
    intro entry hentry node fields hnode hfields
    exact ⟨_, find?_overridden hentry hdistinct hnode hfields,
      ((hall entry hentry).fits hnode hfields).get_patchedNode⟩
  · intro hrefused
    cases hrun : applyPatches t entries with
    | ok t' => exact absurd ((hok t').1 hrun).1 hrefused
    | error e => exact ⟨e, rfl, applyPatches_eq_error ht hdistinct hrun⟩
  · rintro doc' others hdoc' ⟨middle, hperm, hspelling⟩ t'
    rw [merge_eq hdoc', applyPatches_perm ht hperm hdistinct, applyPatches_samePatches ht hspelling]
  · intro other others hother hboth t'
    rw [← List.map_append] at hboth
    simp only [merge_eq hother, bind_eq_ok_iff, ← applyPatches_append_eq_ok_iff]
    exact applyPatches_perm ht List.perm_append_comm hboth

/-- Overrides of two nodes of the built-in table, one of them spelt as a decimal fraction. -/
def sampleOverrides : Document :=
  .record [("process_nodes", .record [("28", .record [("leakage_mw_per_mm2", .number 50)]),
    ("16.0", .record [("v_max", .text "1.0")])])]

theorem merge_semantics_standard :
    ∃ t', standard.merge sampleOverrides = .ok t' ∧
      (∃ n, t'.find? 28 = some n ∧ n.leakage = 50 ∧ n.vMax = 1.1) ∧
      t'.find? 45 = standard.find? 45 ∧ t'.merge sampleOverrides = .ok t' := by
  have hfinite : standard.Finite := fun node n hn c =>
    (sound_standard _ (mem_of_find? hn)).2.finite c
  have h28 : nodeOfKey? "28" = some 28 := by decide +kernel
  have h16 : nodeOfKey? "16.0" = some 16 := by decide +kernel
  have hdistinct : Distinct ["28", "16.0"] := by
    refine List.pairwise_pair.2 fun node hnode hnode' => ?_
    rw [← nodeOfKey?_eq_some_iff] at hnode hnode'
    cases h28.symm.trans hnode
    cases h16.symm.trans hnode'
  have hdoc : sampleOverrides.field "process_nodes" = .record _ := rfl
  obtain ⟨-, hresult, -⟩ := merge_semantics hfinite hdoc hdistinct
  have hok : (standard.merge sampleOverrides).toBool = true := by decide +kernel
  cases hmerge : standard.merge sampleOverrides with
  | error e =>
    rw [hmerge] at hok
    cases hok
  | ok t' =>
    obtain ⟨hpatched, hothers, hagain⟩ := hresult t' hmerge
    obtain ⟨n, hn, hconstants⟩ :=
      hpatched _ List.mem_cons_self 28 _ (nodeOfKey?_eq_some_iff.1 h28) rfl
    have hleakage : (Document.number 50).finite? = some (n.get .leakage) := (hconstants .leakage).1 nofun
    obtain ⟨m, hm, hvMax⟩ := (hconstants .vMax).2 rfl
    refine ⟨t', rfl, ⟨n, hn, ?_, ?_⟩, hothers 45 ?_, hagain⟩
    · have hread : (Document.number 50).finite? = some 50 := by decide +kernel
      exact Option.some.inj (hleakage.symm.trans hread)
    · cases hm
      exact hvMax
    · simp only [List.forall_mem_cons, ← nodeOfKey?_eq_some_iff, h28, h16]
      simp

end documents

end ProcessTable

end MemoryCompiler

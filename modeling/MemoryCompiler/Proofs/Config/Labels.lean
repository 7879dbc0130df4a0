import MemoryCompiler.Config.Label
import MemoryCompiler.Proofs.Config.Acceptance
import MemoryCompiler.Proofs.Decimal.TextValues

/-!
# Labels and canonical texts of configurations

Nothing of a configuration is lost in its label or in the canonical text that its fingerprint is taken of:
the numbers in them end where a character follows that no number has, and the text of a double determines it
(`eq_of_label_eq`, `eq_of_canonicalText_eq`). The order in which a record gives its fields, and whether it
names a feature that it leaves off, do not matter (`SameSettings.holds`).
-/

namespace MemoryCompiler

open Document (fieldIn)
open Text (StartsOutside)

theorem Decimal.text_append_inj {x y : Float} {s t : String} (hs : StartsOutside inNumeral s)
    (ht : StartsOutside inNumeral t) (h : text x ++ s = text y ++ t) : text x = text y ∧ s = t :=
  hs.append_inj ht (fun _ => inNumeral_of_mem_text) (fun _ => inNumeral_of_mem_text) h

namespace Config

variable {c c' : Config}

/-! ### Labels -/

theorem supply_inj {v v' : Document} {x y : Float} (hx : v.IsSupply x) (hy : v'.IsSupply y) :
    Decimal.text x = Decimal.text y ↔ x = y :=
  Decimal.text_inj hx.1 hy.1 (Decimal.toReal_pos hx.1 hx.2.1).ne'

def tagsText (power clock retention ecc : Bool) : String :=
  let tags := (if power then ["PG"] else []) ++ (if clock then ["CG"] else [])
    ++ (if retention then ["RET"] else []) ++ (if ecc then ["ECC"] else [])
  if tags = [] then "none" else ", ".intercalate tags

theorem tagsText_inj : ∀ {a₁ a₂ a₃ a₄ b₁ b₂ b₃ b₄ : Bool},
    tagsText a₁ a₂ a₃ a₄ = tagsText b₁ b₂ b₃ b₄ → a₁ = b₁ ∧ a₂ = b₂ ∧ a₃ = b₃ ∧ a₄ = b₄ := by
  decide +kernel

theorem eq_of_label_eq {v v' : Document} (hv : v.IsSupply c.voltage) (hv' : v'.IsSupply c'.voltage)
    (h : c.label = c'.label) : c = c' := by
  have hx : ∀ t, StartsOutside Char.isDigit ("x" ++ t) :=
    StartsOutside.append (by simp [StartsOutside]) (by decide)
  have hcomma : ∀ t, StartsOutside Char.isDigit (", " ++ t) :=
    StartsOutside.append (by simp [StartsOutside]) (by decide)
  have hbank : ∀ (n : Nat) t, StartsOutside Char.isDigit ((if n = 1 then " bank" else " banks") ++ t) := by
    intro n
    refine StartsOutside.append ?_ (by split_ifs <;> decide)
    split_ifs <;> simp [StartsOutside]
  have hunit : ∀ t, StartsOutside Char.isDigit ("nm, " ++ t) :=
    StartsOutside.append (by simp [StartsOutside]) (by decide)
  have hvolt : ∀ t, StartsOutside Decimal.inNumeral ("V [" ++ t) :=
    StartsOutside.append (by simp [StartsOutside, Decimal.inNumeral]) (by decide)
  simp only [label, String.append_assoc] at h
  obtain ⟨hdepth, h⟩ := Decimal.natText_append_inj (hx _) (hx _) h
  obtain ⟨hwidth, h⟩ := Decimal.natText_append_inj (hcomma _) (hcomma _) ((String.append_right_inj _).1 h)
  obtain ⟨hbanks, h⟩ := Decimal.natText_append_inj (hbank _ _) (hbank _ _) ((String.append_right_inj _).1 h)
  -- Of one number there is one form of the word.
  rw [hbanks] at h
  replace h := (String.append_right_inj _).1 ((String.append_right_inj _).1 h)
  obtain ⟨hnode, h⟩ := Decimal.natText_append_inj (hunit _) (hunit _) h
  obtain ⟨hvoltage, h⟩ := Decimal.text_append_inj (hvolt _) (hvolt _) ((String.append_right_inj _).1 h)
  obtain ⟨hpower, hclock, hretention, hecc⟩ :=
    tagsText_inj ((String.append_left_inj _).1 ((String.append_right_inj _).1 h))
  rw [Config.mk.injEq]
  exact ⟨hdepth, hwidth, hbanks, (supply_inj hv hv').1 hvoltage, hnode, hpower, hclock, hretention, hecc⟩

/-! ### Canonical texts -/

section canonical

variable {value value' : ConfigField → Document}

def itemText (v : Document) : String := v.compact?.getD "null"

def pairText (value : ConfigField → Document) (f : ConfigField) : String :=
  "[" ++ (Text.quote f.name ++ "," ++ itemText (value f)) ++ "]"

theorem compactItems_eq (vs : List Document) : Document.compactItems vs = vs.map itemText := by
  induction vs with
  | nil => rw [Document.compactItems, List.map_nil]
  | cons v vs ih => rw [Document.compactItems, ih, List.map_cons, itemText]

theorem itemText_list (vs : List Document) :
    itemText (.list vs) = "[" ++ ",".intercalate (vs.map itemText) ++ "]" := by
  rw [itemText, Document.compact?, compactItems_eq, Option.getD_some]

theorem itemText_pair (value : ConfigField → Document) (f : ConfigField) :
    itemText (.list [.text f.name, value f]) = pairText value f := by
  have hname : itemText (.text f.name) = Text.quote f.name := by rw [itemText, Document.compact?, Option.getD_some]
  rw [itemText_list, List.map_cons, List.map_singleton, String.intercalate_cons_cons,
    String.intercalate_singleton, hname, pairText]

theorem canonicalText_eq (value : ConfigField → Document) :
    canonicalText value = "[" ++ ",".intercalate (ConfigField.all.map (pairText value)) ++ "]" := by
  have hpairs : (ConfigField.all.map fun f => itemText (.list [.text f.name, value f])) =
      ConfigField.all.map (pairText value) := List.map_congr_left fun f _ => itemText_pair value f
  rw [canonicalText, Document.compact, Document.compact?, compactItems_eq, List.map_map, ← hpairs,
    Option.getD_some]
  rfl

theorem itemText_eq_of_pairs {fs : List ConfigField} (hplain : ∀ f, ']' ∉ (itemText (value f)).toList)
    (hplain' : ∀ f, ']' ∉ (itemText (value' f)).toList)
    (h : (fs.flatMap fun f => ",".toList ++ (pairText value f).toList) =
      fs.flatMap fun f => ",".toList ++ (pairText value' f).toList) :
    ∀ f ∈ fs, itemText (value f) = itemText (value' f) := by
  induction fs with
  | nil => exact List.forall_mem_nil _
  | cons f fs ih =>
    have hclass : ∀ {cs : List Char}, ']' ∉ cs → ∀ c ∈ cs, (c != ']') = true := fun hcs c hc =>
      bne_iff_ne.2 fun heq => hcs (heq ▸ hc)
    have hend : ∀ cs : List Char, ∀ c ∈ ("]".toList ++ cs).head?, (c != ']') = false := by
      intro cs c hc
      cases hc
      rfl
    simp only [List.flatMap_cons, pairText, String.toList_append, List.append_assoc,
      List.append_cancel_left_eq] at h
    obtain ⟨hitem, hrest⟩ :=
      Text.append_inj_of_class (hclass (hplain f)) (hclass (hplain' f)) (hend _) (hend _) h
    refine List.forall_mem_cons.2 ⟨String.toList_injective hitem, ih ?_⟩
    simpa only [pairText, String.toList_append, List.append_assoc] using List.append_cancel_left hrest

theorem toList_pairs (value : ConfigField → Document) (f : ConfigField) (fs : List ConfigField) :
    ",".toList ++ (",".intercalate ((f :: fs).map (pairText value))).toList =
      (f :: fs).flatMap fun f => ",".toList ++ (pairText value f).toList := by
  rw [List.map_cons, Text.toList_intercalate, List.flatMap_map, List.flatMap_cons, List.append_assoc]

theorem itemText_eq_of_canonicalText (hplain : ∀ f, ']' ∉ (itemText (value f)).toList)
    (hplain' : ∀ f, ']' ∉ (itemText (value' f)).toList) (h : canonicalText value = canonicalText value')
    (f : ConfigField) : itemText (value f) = itemText (value' f) := by
  replace h := congrArg String.toList h
  simp only [canonicalText_eq, String.toList_append, List.append_cancel_left_eq,
    List.append_cancel_right_eq] at h
  have hpairs := congrArg (",".toList ++ ·) h
  exact itemText_eq_of_pairs hplain hplain'
    ((toList_pairs value _ _).symm.trans (hpairs.trans (toList_pairs value' _ _))) f f.mem_all

end canonical

theorem itemText_of_isSupply {v : Document} {x : Float} (h : v.IsSupply x) : itemText v = Decimal.text x := by
  obtain ⟨hfinite, -, rfl⟩ := h
  rw [itemText, Document.compact?, Option.getD_some]
  exact if_pos hfinite

theorem isSupply_of_isCount {v : Document} {n : Nat} (h : v.IsCount n) : v.IsSupply (Float.ofNat n) := by
  obtain ⟨hpos, hle, rfl⟩ := h
  exact ⟨Decimal.isFinite_ofNat hpos (Nat.lt_succ_of_le hle), (Decimal.isCount_iff.2 ⟨n, hpos, hle, rfl⟩).2.1,
    rfl⟩

section fields

variable {f : ConfigField} {v v' : Document}

/-- A field is a number in every configuration that is read, or a truth value in every one. -/
theorem Holds.get_cases (h : c.Holds f v) (h' : c'.Holds f v') :
    (∃ x y, (c.get f).IsSupply x ∧ (c'.get f).IsSupply y) ∨
      ∃ a b, c.get f = .boolean a ∧ c'.get f = .boolean b := by
  replace h := h.self
  replace h' := h'.self
  cases f with
  | depth | width | banks | processNode => exact .inl ⟨_, _, isSupply_of_isCount h, isSupply_of_isCount h'⟩
  | voltage => exact .inl ⟨_, _, h, h'⟩
  | powerGating | clockGating | retentionMode | eccEnable => exact .inr ⟨_, _, rfl, rfl⟩

theorem Holds.notMem_itemText (h : c.Holds f v) : ']' ∉ (itemText (c.get f)).toList := by
  obtain ⟨x, -, hx, -⟩ | ⟨b, -, hb, -⟩ := h.get_cases h
  · rw [itemText_of_isSupply hx]
    exact fun hmem => absurd (Decimal.inNumeral_of_mem_text hmem) (by decide)
  · rw [hb]
    cases b <;> decide

theorem Holds.get_eq_of_itemText (h : c.Holds f v) (h' : c'.Holds f v')
    (heq : itemText (c.get f) = itemText (c'.get f)) : c.get f = c'.get f := by
  obtain ⟨x, y, hx, hy⟩ | ⟨a, b, ha, hb⟩ := h.get_cases h'
  · rw [itemText_of_isSupply hx, itemText_of_isSupply hy, supply_inj hx hy] at heq
    rw [hx.2.2, hy.2.2, heq]
  · rw [ha, hb] at heq
    have hsame : a = b := by
      revert heq
      cases a <;> cases b <;> decide
    rw [ha, hb, hsame]

end fields

theorem eq_of_canonicalText_eq {value value' : ConfigField → Document} (h : ∀ f, c.Holds f (value f))
    (h' : ∀ f, c'.Holds f (value' f)) (heq : canonicalText c.get = canonicalText c'.get) : c = c' := by
  have hitems := itemText_eq_of_canonicalText (fun f => (h f).notMem_itemText)
    (fun f => (h' f).notMem_itemText) heq
  have hreads : ∀ f, c.Reads f (c.get f) := fun f => (holds_iff.1 (h f).self).2
  have hreads' : ∀ f, c'.Reads f (c'.get f) := fun f => (holds_iff.1 (h' f).self).2
  refine Reads.unique hreads fun f => ?_
  rw [(h f).get_eq_of_itemText (h' f) (hitems f)]
  exact hreads' f

/-! ### Records of one configuration -/

/-- A field that names a feature and leaves it off. -/
def LeavesOff (p : String × Document) : Prop :=
  ∃ f : ConfigField, f.schema = .switch ∧ p.1 = f.name ∧ (p.2 = .boolean false ∨ p.2 = .undefined)

/-- Two records with different names give the same fields, in whatever order, but for the features that
they leave off. -/
structure SameSettings (fields fields' : List (String × Document)) : Prop where
  distinct : (fields.map Prod.fst).Nodup
  distinct' : (fields'.map Prod.fst).Nodup
  mem_iff : ∀ p, ¬ LeavesOff p → (p ∈ fields ↔ p ∈ fields')

section settings

variable {fields fields' : List (String × Document)}

theorem fieldIn_of_mem {p : String × Document} (hdistinct : (fields.map Prod.fst).Nodup) (hp : p ∈ fields) :
    fieldIn fields p.1 = p.2 := by
  rw [fieldIn, Document.lookup_of_mem hdistinct hp, Option.getD_some]

theorem fieldIn_cases (fields : List (String × Document)) (f : ConfigField) :
    ((f.name, fieldIn fields f.name) ∈ fields ∧ ¬ LeavesOff (f.name, fieldIn fields f.name)) ∨
      (fieldIn fields f.name).settled = .boolean false := by
  by_cases hoff : LeavesOff (f.name, fieldIn fields f.name)
  · obtain ⟨-, -, -, hvalue | hvalue⟩ := hoff
    · exact .inr (congrArg Document.settled hvalue)
    · exact .inr (congrArg Document.settled hvalue)
  cases hlookup : fields.lookup f.name with
  | none =>
    rw [fieldIn, hlookup]
    exact .inr rfl
  | some v =>
    obtain ⟨before, after, hfields, -⟩ := List.lookup_eq_some_iff.1 hlookup
    refine .inl ⟨?_, hoff⟩
    rw [fieldIn, hlookup, hfields]
    exact List.mem_append_right before List.mem_cons_self

theorem SameSettings.fieldIn_eq (h : SameSettings fields fields') (f : ConfigField) :
    fieldIn fields f.name = fieldIn fields' f.name ∨
      (fieldIn fields f.name).settled = .boolean false ∧ (fieldIn fields' f.name).settled = .boolean false := by
  rcases fieldIn_cases fields f with ⟨hmem, hgiven⟩ | hoff
  · exact .inl (fieldIn_of_mem h.distinct' ((h.mem_iff _ hgiven).1 hmem)).symm
  · rcases fieldIn_cases fields' f with ⟨hmem, hgiven⟩ | hoff'
    · exact .inl (fieldIn_of_mem h.distinct ((h.mem_iff _ hgiven).2 hmem))
    · exact .inr ⟨hoff, hoff'⟩

theorem isSwitch_of_settled {v : Document} (h : v.settled = .boolean false) : v.IsSwitch false := by
  cases v with
  | undefined => exact .inr ⟨rfl, rfl⟩
  | boolean b => exact .inl h
  | null | number | integer | text | list | record => cases h

/-- Only a feature can be left off, and one that is left off is off. -/
theorem Holds.of_settled {f : ConfigField} {v v' : Document} (h : c.Holds f v) (hv : v.settled = .boolean false)
    (hv' : v'.settled = .boolean false) : c.Holds f v' := by
  have hget := h.get_eq.trans hv
  cases f with
  | depth | width | banks | voltage | processNode => cases hget
  | powerGating | clockGating | retentionMode | eccEnable =>
    have hoff := Document.boolean.inj hget
    have hswitch := isSwitch_of_settled hv'
    rw [← hoff] at hswitch
    exact hswitch

theorem SameSettings.holds (h : SameSettings fields fields') (hheld : ∀ f, c.Holds f (fieldIn fields f.name))
    (f : ConfigField) : c.Holds f (fieldIn fields' f.name) := by
  rcases h.fieldIn_eq f with heq | ⟨hoff, hoff'⟩
  · rw [← heq]
    exact hheld f
  · exact (hheld f).of_settled hoff hoff'

theorem SameSettings.accepted {table : ProcessTable} (h : SameSettings fields fields')
    (hheld : ∀ f, c.Holds f (fieldIn fields f.name)) (haccepted : Accepted fields table) :
    Accepted fields' table where
  admitted := fun f => (h.holds hheld f).admits
  known := fun p hp => by
    by_cases hoff : LeavesOff p
    · obtain ⟨f, -, hname, -⟩ := hoff
      exact ⟨f, hname⟩
    · exact haccepted.known p ((h.mem_iff p hoff).2 hp)
  divide := (banksDivide_iff (h.holds hheld)).2 ((banksDivide_iff hheld).1 haccepted.divide)
  listed := (nodeListed_iff (h.holds hheld)).2 ((nodeListed_iff hheld).1 haccepted.listed)

end settings

section check

variable {check : List (String × Document) → Except (List SchemaIssue) Config}
  (hcheck : ChecksSchema check) {table : ProcessTable}

include hcheck

theorem SameSettings.ofDocumentWith {fields fields' : List (String × Document)} (h : SameSettings fields fields')
    (hread : Config.ofDocumentWith check (.record fields) table = .ok c) :
    Config.ofDocumentWith check (.record fields') table = .ok c := by
  rcases ofDocumentWith_record hcheck fields table with ⟨c', hc, hheld, haccepted⟩ | ⟨e, he, -⟩
  · rw [hc] at hread
    cases hread
    exact ofDocumentWith_of_accepted hcheck (h.holds hheld) (h.accepted hheld haccepted)
  · rw [he] at hread
    cases hread

end check

/-- Labels and canonical texts lose nothing, over any check of the schema that keeps to its contract: two
configurations that were read, each under a table of its own, are the same when their labels are, and when
the canonical texts are that their fingerprints are taken of. Two records of the same settings, in whatever
order and with features left off in whatever way, are read as configurations of one label, one canonical
text and one fingerprint. -/
theorem labels_lossless {check : List (String × Document) → Except (List SchemaIssue) Config}
    (hcheck : ChecksSchema check) :
    (∀ {raw raw' : Document} {table table' : ProcessTable} {c c' : Config},
      ofDocumentWith check raw table = .ok c → ofDocumentWith check raw' table' = .ok c' →
        (c.label = c'.label → c = c') ∧ (canonicalText c.get = canonicalText c'.get → c = c')) ∧
    ∀ {fields fields' : List (String × Document)} {table : ProcessTable} {c : Config},
      SameSettings fields fields' → ofDocumentWith check (.record fields) table = .ok c →
        ∃ c', ofDocumentWith check (.record fields') table = .ok c' ∧ c.label = c'.label ∧
          canonicalText c.get = canonicalText c'.get ∧ c.fingerprint = c'.fingerprint := by
  refine ⟨fun hread hread' => ?_, fun hsame hread => ⟨_, hsame.ofDocumentWith hcheck hread, rfl, rfl, rfl⟩⟩
  obtain ⟨hheld, -⟩ := holds_of_ofDocumentWith hcheck hread
  obtain ⟨hheld', -⟩ := holds_of_ofDocumentWith hcheck hread'
  exact ⟨eq_of_label_eq (hheld .voltage) (hheld' .voltage), eq_of_canonicalText_eq hheld hheld'⟩

/-- The record of a configuration and one that gives its fields in another order, with two features left
out and one set to nothing. Another voltage gives another label and another canonical text. -/
theorem labels_lossless_reordered :
    let c (voltage : Float) : Config := ⟨1024, 32, 4, voltage, 28, false, false, false, true⟩
    ofDocument (c 0.9).toDocument .standard = .ok (c 0.9) ∧
      (c 0.9).label ≠ (c 0.95).label ∧ canonicalText (c 0.9).get ≠ canonicalText (c 0.95).get ∧
      ∃ c', ofDocument (.record [("ecc_enable", .boolean true), ("process_node", .ofNat 28),
          ("power_gating", .undefined), ("voltage", .number 0.9), ("banks", .ofNat 4), ("width", .ofNat 32),
          ("depth", .ofNat 1024)]) .standard = .ok c' ∧
        (c 0.9).label = c'.label ∧ canonicalText (c 0.9).get = canonicalText c'.get ∧
          (c 0.9).fingerprint = c'.fingerprint := by
  intro c
  have hcheck := checksSchema_checkSchema
  have hread : ∀ voltage : Float, voltage.isFinite = true → 0 < voltage →
      ofDocument (c voltage).toDocument .standard = .ok (c voltage) := by
    intro voltage hfinite hpos
    refine ofDocumentWith_toDocument_of_holds hcheck (fun f => ?_) (by decide : 4 ∣ 1024)
      (by decide : 28 ∈ ProcessTable.standard.nodes)
    cases f with
    | depth => exact (⟨by decide, by decide, rfl⟩ : (Document.ofNat 1024).IsCount 1024)
    | width => exact (⟨by decide, by decide, rfl⟩ : (Document.ofNat 32).IsCount 32)
    | banks => exact (⟨by decide, by decide, rfl⟩ : (Document.ofNat 4).IsCount 4)
    | processNode => exact (⟨by decide, by decide, rfl⟩ : (Document.ofNat 28).IsCount 28)
    | voltage => exact ⟨hfinite, hpos, rfl⟩
    | powerGating | clockGating | retentionMode | eccEnable => exact .inl rfl
  have hnine := hread 0.9 (by decide +kernel) (by decide +kernel)
  have hmore := hread 0.95 (by decide +kernel) (by decide +kernel)
  obtain ⟨hdifferent, hsame⟩ := labels_lossless hcheck
  obtain ⟨hlabel, hcanonical⟩ := hdifferent hnine hmore
  have hne : c 0.9 ≠ c 0.95 := fun heq => absurd (congrArg Config.voltage heq) (by decide +kernel)
  refine ⟨hnine, mt hlabel hne, mt hcanonical hne, hsame ⟨by decide, by decide, fun p hp => ?_⟩ hnine⟩
  have hoff : ∀ f : ConfigField, f.schema = .switch → p ≠ (f.name, .boolean false) ∧ p ≠ (f.name, .undefined) := by
    refine fun f hf => ⟨?_, ?_⟩
    · rintro rfl
      exact hp ⟨f, hf, rfl, .inl rfl⟩
    · rintro rfl
      exact hp ⟨f, hf, rfl, .inr rfl⟩
  obtain ⟨hpower, hpower'⟩ := hoff .powerGating rfl
  have hclock := (hoff .clockGating rfl).1
  have hretention := (hoff .retentionMode rfl).1
  simp only [ConfigField.name] at hpower hpower' hclock hretention
  simp only [ConfigField.all, List.map_cons, List.map_nil, List.mem_cons, List.not_mem_nil, or_false,
    ConfigField.name, Config.get, c, hpower, hpower', hclock, hretention, false_or]
  grind

end Config

end MemoryCompiler

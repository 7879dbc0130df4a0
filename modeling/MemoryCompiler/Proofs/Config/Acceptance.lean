import MemoryCompiler.Proofs.Config.Fields

/-!
# Which records are configurations

The rules of a configuration record, said without the order in which they are checked
(`Config.Accepted`), and the field that a refusal has to name (`Config.blamed?`): the first field
that breaks its own rule, else the first field that is none, else the banks, else the process node.
`Config.ofDocumentWith_verdict` says that reading a document decides the one and reports the other.

The check of the schema is a parameter there. All that is used of it is `Config.ChecksSchema`: it lets a
record through when every field passes the checks of its schema and no other field is there, and lists
the issues of the fields in their order and that of the unknown fields last.
`Config.checksSchema_checkSchema` says that the check in use is one of these.
-/

namespace MemoryCompiler

open Document (fieldIn)

/-! ### The rules -/

namespace Config

/-- Some field has the name. -/
def IsKnown (name : String) : Prop := ∃ f : ConfigField, name = f.name

/-- The number of banks divides that of words. -/
def BanksDivide (fields : List (String × Document)) : Prop :=
  ∃ depth banks, (fieldIn fields "depth").IsCount depth ∧ (fieldIn fields "banks").IsCount banks ∧
    banks ∣ depth

def NodeListed (fields : List (String × Document)) (table : ProcessTable) : Prop :=
  ∃ node, (fieldIn fields "process_node").IsCount node ∧ node ∈ table.nodes

/-- The records that are configurations under a table. -/
structure Accepted (fields : List (String × Document)) (table : ProcessTable) : Prop where
  admitted : ∀ f : ConfigField, f.Admits (fieldIn fields f.name)
  known : ∀ p ∈ fields, IsKnown p.1
  divide : BanksDivide fields
  listed : NodeListed fields table

open Classical in
/-- The first field in order that breaks its own rule. -/
noncomputable def firstBroken? (fields : List (String × Document)) : Option ConfigField :=
  ConfigField.all.find? fun f => ¬ f.Admits (fieldIn fields f.name)

open Classical in
/-- The first field of a record that no configuration has. -/
noncomputable def firstUnknown? (fields : List (String × Document)) : Option (String × Document) :=
  fields.find? fun p => ¬ IsKnown p.1

open Classical in
/-- The name that the refusal of a record has to give; `none` for a record without a fault. -/
noncomputable def blamedField? (fields : List (String × Document)) (table : ProcessTable) :
    Option String :=
  match firstBroken? fields with
  | some f => some f.name
  | none =>
    match firstUnknown? fields with
    | some p => some p.1
    | none =>
      if ¬ BanksDivide fields then some "banks"
      else if ¬ NodeListed fields table then some "process_node"
      else none

/-- The name and the value that the refusal of a document has to give. -/
noncomputable def blamed? (raw : Document) (table : ProcessTable) : Option (String × Document) :=
  match raw with
  | .record fields => (blamedField? fields table).map fun name => (name, fieldIn fields name)
  | _ => some ("configuration", raw)

section faults

variable {fields : List (String × Document)} {table : ProcessTable}

theorem firstBroken?_eq_none_iff :
    firstBroken? fields = none ↔ ∀ f : ConfigField, f.Admits (fieldIn fields f.name) := by
  simp only [firstBroken?, List.find?_eq_none, decide_eq_true_eq, not_not, ConfigField.mem_all,
    forall_const]

theorem firstBroken?_eq_some_iff {f : ConfigField} : firstBroken? fields = some f ↔
    ¬ f.Admits (fieldIn fields f.name) ∧ ∃ before after, ConfigField.all = before ++ f :: after ∧
      ∀ g ∈ before, g.Admits (fieldIn fields g.name) := by
  simp only [firstBroken?, List.find?_eq_some_iff_append, decide_eq_true_eq, Bool.not_eq_true',
    decide_eq_false_iff_not, not_not]

theorem firstUnknown?_eq_none_iff : firstUnknown? fields = none ↔ ∀ p ∈ fields, IsKnown p.1 := by
  simp only [firstUnknown?, List.find?_eq_none, decide_eq_true_eq, not_not]

theorem blamedField?_eq_none_iff : blamedField? fields table = none ↔ Accepted fields table := by
  unfold blamedField?
  constructor
  · intro h
    split at h
    · cases h
    · next hadmitted =>
      split at h
      · cases h
      · next hknown =>
        split_ifs at h with hdivide hlisted
        exact ⟨firstBroken?_eq_none_iff.1 hadmitted, firstUnknown?_eq_none_iff.1 hknown, hdivide, hlisted⟩
  · intro h
    simp only [firstBroken?_eq_none_iff.2 h.admitted, firstUnknown?_eq_none_iff.2 h.known,
      h.divide, h.listed, not_true_eq_false, if_false]

end faults

theorem fieldIn_toDocument (c : Config) (f : ConfigField) :
    fieldIn (ConfigField.all.map fun f => (f.name, c.get f)) f.name = c.get f := by
  cases f <;> rfl

/-! ### The check of the schema -/

theorem contains_names_iff {name : String} :
    (ConfigField.all.map ConfigField.name).contains name = true ↔ IsKnown name := by
  rw [List.contains_iff_mem, List.mem_map]
  constructor
  · rintro ⟨f, -, rfl⟩
    exact ⟨f, rfl⟩
  · rintro ⟨f, rfl⟩
    exact ⟨f, f.mem_all, rfl⟩

theorem unknownNames_eq_nil_iff {fields : List (String × Document)} :
    unknownNames fields = [] ↔ ∀ p ∈ fields, IsKnown p.1 := by
  simp only [unknownNames, List.filter_eq_nil_iff, List.forall_mem_map, Bool.not_eq_true',
    Bool.not_eq_false, contains_names_iff]

open Classical in
theorem head?_unknownNames (fields : List (String × Document)) :
    (unknownNames fields).head? = (firstUnknown? fields).map Prod.fst := by
  rw [unknownNames, List.head?_filter, List.find?_map, firstUnknown?]
  congr 2
  funext p
  rw [Bool.eq_iff_iff, Function.comp_apply, Bool.not_eq_true', decide_eq_true_eq, ← contains_names_iff,
    Bool.not_eq_true]

/-- What the program relies on a check of the schema for. -/
structure ChecksSchema
    (check : List (String × Document) → Except (List SchemaIssue) Config) : Prop where
  /-- It lets through the records whose fields all pass their schemas and that have no other field, and
  yields the values given, `false` for a feature that is not given. -/
  ok_iff : ∀ {fields c}, check fields = .ok c ↔
    (∀ f : ConfigField, f.schema.Passes (fieldIn fields f.name)) ∧ (∀ p ∈ fields, IsKnown p.1) ∧
      ∀ f, c.Reads f (fieldIn fields f.name)
  /-- It reports one or more issues for each field that does not pass, in the order of the fields, and
  then one for all unknown fields, in the order of the record. -/
  issues : ∀ {fields issues}, check fields = .error issues → ∃ own : ConfigField → List SchemaIssue,
    (∀ f, own f = [] ↔ f.schema.Passes (fieldIn fields f.name)) ∧ (∀ f, ∀ i ∈ own f, i.IsAbout f) ∧
      issues = ConfigField.all.flatMap own ++ unknownIssues fields

theorem ChecksSchema.ok_iff_holds
    {check : List (String × Document) → Except (List SchemaIssue) Config} (hcheck : ChecksSchema check)
    {fields : List (String × Document)} {c : Config} : check fields = .ok c ↔
      (∀ f, c.Holds f (fieldIn fields f.name)) ∧ ∀ p ∈ fields, IsKnown p.1 := by
  rw [hcheck.ok_iff]
  simp only [holds_iff, forall_and]
  tauto

theorem unknownIssues_eq_nil_iff {fields : List (String × Document)} :
    unknownIssues fields = [] ↔ ∀ p ∈ fields, IsKnown p.1 := by
  rw [← unknownNames_eq_nil_iff, unknownIssues]
  cases unknownNames fields <;> simp

theorem schemaIssues_eq_nil_iff {fields : List (String × Document)} : schemaIssues fields = [] ↔
    (∀ f : ConfigField, f.schema.Passes (fieldIn fields f.name)) ∧ ∀ p ∈ fields, IsKnown p.1 := by
  rw [schemaIssues, List.append_eq_nil_iff, List.flatMap_eq_nil_iff, unknownIssues_eq_nil_iff]
  simp only [ConfigField.mem_all, forall_const, ConfigField.issues_eq_nil_iff]

theorem checksSchema_checkSchema : ChecksSchema checkSchema where
  ok_iff := by
    intro fields c
    rw [checkSchema]
    constructor
    · intro h
      split at h
      · next hnone =>
        cases h
        obtain ⟨hpass, hknown⟩ := schemaIssues_eq_nil_iff.1 hnone
        exact ⟨hpass, hknown, fun f => reads_ofFields (hpass f)⟩
      · cases h
    · rintro ⟨hpass, hknown, hreads⟩
      rw [schemaIssues_eq_nil_iff.2 ⟨hpass, hknown⟩, Reads.unique hreads fun f => reads_ofFields (hpass f)]
  issues := by
    intro fields issues h
    have hissues : issues = schemaIssues fields := by
      rw [checkSchema] at h
      split at h
      · cases h
      · exact (Except.error.inj h).symm
    refine ⟨fun f => f.issues (fieldIn fields f.name), fun f => ConfigField.issues_eq_nil_iff,
      fun f i hi => ConfigField.isAbout_of_mem_issues hi, hissues⟩

/-! ### The rules between fields -/

theorem lookup_eq_ok_iff {table : ProcessTable} {node : Nat} :
    (∃ n, table.lookup node = .ok n) ↔ node ∈ table.nodes := by
  have hsome : (table.find? node).isSome = true ↔ node ∈ table.nodes := by
    rw [ProcessTable.find?, List.lookup_isSome_iff, ProcessTable.nodes, List.mem_map]
    exact exists_congr fun p => and_congr_right fun _ => beq_iff_eq.trans eq_comm
  rw [← hsome, ProcessTable.lookup]
  cases table.find? node with
  | none => simp
  | some n => simp

/-! ### Reading a document -/

section verdict

variable {fields : List (String × Document)} {table : ProcessTable} {c : Config}

theorem banksDivide_iff (hheld : ∀ f, c.Holds f (fieldIn fields f.name)) :
    BanksDivide fields ↔ c.banks ∣ c.depth := by
  constructor
  · rintro ⟨depth, banks, hdepth, hbanks, hdvd⟩
    have hd : c.depth = depth := Document.IsCount.unique (hheld .depth) hdepth
    have hb : c.banks = banks := Document.IsCount.unique (hheld .banks) hbanks
    rwa [hd, hb]
  · exact fun h => ⟨c.depth, c.banks, hheld .depth, hheld .banks, h⟩

theorem nodeListed_iff (hheld : ∀ f, c.Holds f (fieldIn fields f.name)) :
    NodeListed fields table ↔ c.processNode ∈ table.nodes := by
  constructor
  · rintro ⟨node, hnode, hmem⟩
    have hn : c.processNode = node := Document.IsCount.unique (hheld .processNode) hnode
    rwa [hn]
  · exact fun h => ⟨c.processNode, hheld .processNode, h⟩

/-- What a refusal carries. -/
def Blames (name : String) (v : Document) (e : ConfigError) : Prop :=
  e.complaint.field = name ∧ e.complaint.value = v

theorem blames_of_not_dvd (table : ProcessTable) (h : ¬ c.banks ∣ c.depth) :
    ∃ e, checkTogether c table = .error e ∧ Blames "banks" (.ofNat c.banks) e := by
  rw [checkTogether]
  split_ifs with hlarge hrest
  · exact ⟨_, rfl, rfl, rfl⟩
  · exact ⟨_, rfl, rfl, rfl⟩
  · exact absurd (Nat.dvd_of_mod_eq_zero (not_not.1 hrest)) h

theorem blames_of_lookup {node : Nat} {cause : UnknownNode} (h : table.lookup node = .error cause) :
    Blames "process_node" (.ofNat node) (.unknownNode cause) := by
  rw [ProcessTable.lookup] at h
  split at h <;> cases h
  exact ⟨rfl, rfl⟩

theorem checkTogether_of_dvd (hdepth : 0 < c.depth) (h : c.banks ∣ c.depth) :
    checkTogether c table = match table.lookup c.processNode with
      | .ok _ => .ok ()
      | .error e => .error (.unknownNode e) := by
  have hsmall : ¬ c.depth < c.banks := Nat.not_lt.2 (Nat.le_of_dvd hdepth h)
  have heven : ¬ c.depth % c.banks ≠ 0 := not_not.2 (Nat.mod_eq_zero_of_dvd h)
  rw [checkTogether]
  exact (if_neg hsmall).trans (if_neg heven)

/-- The refusal `e` of a record names the field to blame, with the value that the record has there. -/
def Refuses (fields : List (String × Document)) (table : ProcessTable) (e : ConfigError) : Prop :=
  ∃ name, blamedField? fields table = some name ∧ Blames name (fieldIn fields name) e

theorem blames_toError {f : ConfigField} {issue : SchemaIssue} (h : issue.IsAbout f) :
    Blames f.name (fieldIn fields f.name) (issue.toError fields) := by
  rcases h with rfl | ⟨maximum, rfl⟩
  · exact ⟨rfl, rfl⟩
  · exact ⟨rfl, rfl⟩

theorem firstBroken?_of_holds (hheld : ∀ f, c.Holds f (fieldIn fields f.name)) :
    firstBroken? fields = none := by
  rw [firstBroken?_eq_none_iff]
  exact fun f => (hheld f).admits

section check

variable {check : List (String × Document) → Except (List SchemaIssue) Config}
  (hcheck : ChecksSchema check)

include hcheck

theorem refuses_of_broken {issues : List SchemaIssue} {f : ConfigField}
    (h : check fields = .error issues) (hf : firstBroken? fields = some f) :
    ∃ issue, issues.head? = some issue ∧ Refuses fields table (issue.toError fields) := by
  obtain ⟨own, hown, habout, rfl⟩ := hcheck.issues h
  obtain ⟨hbroken, before, after, hall, hbefore⟩ := firstBroken?_eq_some_iff.1 hf
  -- The fields before it have no issues, so the list begins with its own.
  have hnone : before.flatMap own = [] :=
    List.flatMap_eq_nil_iff.2 fun g hg => (hown g).2 (ConfigField.admits_iff.1 (hbefore g hg))
  rw [ConfigField.admits_iff, ← hown f] at hbroken
  obtain ⟨issue, rest, hissue⟩ := List.exists_cons_of_ne_nil hbroken
  refine ⟨issue, ?_, f.name, ?_, blames_toError (habout f issue ?_)⟩
  · rw [hall, List.flatMap_append, hnone, List.flatMap_cons, hissue]
    rfl
  · rw [blamedField?, hf]
  · rw [hissue]
    exact List.mem_cons_self

theorem refuses_of_unknown {issues : List SchemaIssue}
    (h : check fields = .error issues) (hbroken : firstBroken? fields = none) :
    ∃ issue, issues.head? = some issue ∧ Refuses fields table (issue.toError fields) := by
  obtain ⟨own, hown, -, rfl⟩ := hcheck.issues h
  have hadmits := firstBroken?_eq_none_iff.1 hbroken
  have hnone : ConfigField.all.flatMap own = [] :=
    List.flatMap_eq_nil_iff.2 fun f _ => (hown f).2 (ConfigField.admits_iff.1 (hadmits f))
  cases hunknown : firstUnknown? fields with
  | none =>
    -- A record without a fault of either kind is let through.
    have hheld := fun f => holds_ofFields (hadmits f)
    rw [hcheck.ok_iff_holds.2 ⟨hheld, firstUnknown?_eq_none_iff.1 hunknown⟩] at h
    cases h
  | some p =>
    have hhead := head?_unknownNames fields
    rw [hunknown, Option.map_some, List.head?_eq_some_iff] at hhead
    obtain ⟨names, hnames⟩ := hhead
    refine ⟨.unknownFields (p.1 :: names), ?_, p.1, ?_, rfl, rfl⟩
    · rw [hnone, unknownIssues, hnames]
      rfl
    · rw [blamedField?, hbroken, hunknown]

theorem ofDocumentWith_of_accepted (hheld : ∀ f, c.Holds f (fieldIn fields f.name))
    (haccepted : Accepted fields table) : ofDocumentWith check (.record fields) table = .ok c := by
  have hdvd := (banksDivide_iff hheld).1 haccepted.divide
  obtain ⟨n, hn⟩ := lookup_eq_ok_iff.2 ((nodeListed_iff hheld).1 haccepted.listed)
  simp only [ofDocumentWith, hcheck.ok_iff_holds.2 ⟨hheld, haccepted.known⟩,
    checkTogether_of_dvd (hheld .depth).1 hdvd, hn]
  rfl

/-- Reading a record yields a configuration that it stands for, or the refusal that it deserves. -/
theorem ofDocumentWith_record (fields : List (String × Document)) (table : ProcessTable) :
    (∃ c, ofDocumentWith check (.record fields) table = .ok c ∧
      (∀ f, c.Holds f (fieldIn fields f.name)) ∧ Accepted fields table) ∨
    ∃ e, ofDocumentWith check (.record fields) table = .error e ∧ Refuses fields table e := by
  cases hresult : check fields with
  | error issues =>
    have hrefused : ∃ issue, issues.head? = some issue ∧
        Refuses fields table (issue.toError fields) := by
      cases hbroken : firstBroken? fields with
      | some f => exact refuses_of_broken hcheck hresult hbroken
      | none => exact refuses_of_unknown hcheck hresult hbroken
    obtain ⟨issue, hhead, hrefuses⟩ := hrefused
    obtain ⟨rest, rfl⟩ := List.head?_eq_some_iff.1 hhead
    refine .inr ⟨issue.toError fields, ?_, hrefuses⟩
    rw [ofDocumentWith, hresult]
  | ok c =>
    obtain ⟨hheld, hknown⟩ := hcheck.ok_iff_holds.1 hresult
    have hbroken := firstBroken?_of_holds hheld
    have hunknown := firstUnknown?_eq_none_iff.2 hknown
    simp only [ofDocumentWith, hresult]
    by_cases hdvd : c.banks ∣ c.depth
    · have hdivide := (banksDivide_iff hheld).2 hdvd
      rw [checkTogether_of_dvd (hheld .depth).1 hdvd]
      cases hlookup : table.lookup c.processNode with
      | ok n =>
        have hlisted := (nodeListed_iff hheld).2 (lookup_eq_ok_iff.1 ⟨n, hlookup⟩)
        exact .inl ⟨c, rfl, hheld, firstBroken?_eq_none_iff.1 hbroken, hknown, hdivide, hlisted⟩
      | error cause =>
        have hunlisted : ¬ NodeListed fields table := by
          rw [nodeListed_iff hheld, ← lookup_eq_ok_iff, hlookup]
          rintro ⟨n, hn⟩
          cases hn
        have hvalue : fieldIn fields "process_node" = .ofNat c.processNode := (hheld .processNode).2.2
        refine .inr ⟨_, rfl, "process_node", ?_, ?_⟩
        · simp only [blamedField?, hbroken, hunknown, hdivide, hunlisted, not_true_eq_false,
            not_false_eq_true, if_false, if_true]
        · rw [hvalue]
          exact blames_of_lookup hlookup
    · obtain ⟨e, he, hblames⟩ := blames_of_not_dvd table hdvd
      have hvalue : fieldIn fields "banks" = .ofNat c.banks := (hheld .banks).2.2
      refine .inr ⟨e, ?_, "banks", ?_, ?_⟩
      · rw [he]
        rfl
      · simp only [blamedField?, hbroken, hunknown, if_pos (mt (banksDivide_iff hheld).1 hdvd)]
      · rwa [hvalue]

theorem ofDocumentWith_toDocument_of_holds (hheld : ∀ f, c.Holds f (c.get f)) (hdivide : c.banks ∣ c.depth)
    (hlisted : c.processNode ∈ table.nodes) : ofDocumentWith check c.toDocument table = .ok c := by
  have hself : ∀ f : ConfigField,
      c.Holds f (fieldIn (ConfigField.all.map fun f => (f.name, c.get f)) f.name) := by
    intro f
    rw [fieldIn_toDocument]
    exact hheld f
  refine ofDocumentWith_of_accepted hcheck hself {
    admitted := firstBroken?_eq_none_iff.1 (firstBroken?_of_holds hself)
    known := fun p hp => ?_
    divide := (banksDivide_iff hself).2 hdivide
    listed := (nodeListed_iff hself).2 hlisted }
  obtain ⟨f, -, rfl⟩ := List.mem_map.1 hp
  exact ⟨f, rfl⟩

theorem ofDocumentWith_toDocument (hheld : ∀ f, c.Holds f (fieldIn fields f.name))
    (haccepted : Accepted fields table) : ofDocumentWith check c.toDocument table = .ok c :=
  ofDocumentWith_toDocument_of_holds hcheck (fun f => (hheld f).self)
    ((banksDivide_iff hheld).1 haccepted.divide) ((nodeListed_iff hheld).1 haccepted.listed)

theorem holds_of_ofDocumentWith {raw : Document} (h : ofDocumentWith check raw table = .ok c) :
    (∀ f, c.Holds f (raw.field f.name)) ∧ c.processNode ∈ table.nodes := by
  cases raw with
  | record fields =>
    rcases ofDocumentWith_record hcheck fields table with ⟨c', hc, hheld, haccepted⟩ | ⟨e, he, -⟩
    · rw [hc] at h
      cases h
      exact ⟨hheld, (nodeListed_iff hheld).1 haccepted.listed⟩
    · rw [he] at h
      cases h
  | undefined | null | boolean | number | integer | text | list => cases h

theorem banks_dvd_of_ofDocumentWith {raw : Document} (h : ofDocumentWith check raw table = .ok c) :
    c.banks ∣ c.depth := by
  cases raw with
  | record fields =>
    rcases ofDocumentWith_record hcheck fields table with ⟨c', hc, hheld, haccepted⟩ | ⟨e, he, -⟩
    · rw [hc] at h
      cases h
      exact (banksDivide_iff hheld).1 haccepted.divide
    · rw [he] at h
      cases h
  | undefined | null | boolean | number | integer | text | list => cases h

end check

end verdict

/-- Reading a document as a configuration, over any check of the schema that keeps to its contract:
the accepted documents are the records that keep all rules; the configuration has the nine fields with
the values given, `false` for a feature that is not given, and reads back as itself; a refusal names
the field to blame and carries the value that the document has there. -/
theorem ofDocumentWith_verdict
    {check : List (String × Document) → Except (List SchemaIssue) Config} (hcheck : ChecksSchema check)
    (raw : Document) (table : ProcessTable) :
    ((∃ c, ofDocumentWith check raw table = .ok c) ↔
      ∃ fields, raw = .record fields ∧ Accepted fields table) ∧
    match ofDocumentWith check raw table with
    | .ok c => (∀ f, c.Holds f (raw.field f.name)) ∧
      c.toDocument = .record (ConfigField.all.map fun f => (f.name, (raw.field f.name).settled)) ∧
      ofDocumentWith check c.toDocument table = .ok c
    | .error e => blamed? raw table = some (e.complaint.field, e.complaint.value) := by
  cases raw with
  | record fields =>
    rcases ofDocumentWith_record hcheck fields table with ⟨c, hc, hheld, haccepted⟩ | ⟨e, he, hrefuses⟩
    · rw [hc]
      refine ⟨⟨fun _ => ⟨fields, rfl, haccepted⟩, fun _ => ⟨c, rfl⟩⟩, hheld, ?_, ?_⟩
      · rw [toDocument]
        congr 1
        exact List.map_congr_left fun f _ => congrArg (f.name, ·) (hheld f).get_eq
      · exact ofDocumentWith_toDocument hcheck hheld haccepted
    · obtain ⟨name, hname, hfield, hvalue⟩ := hrefuses
      rw [he]
      refine ⟨⟨?_, ?_⟩, ?_⟩
      · rintro ⟨c, hc⟩
        cases hc
      · rintro ⟨fields', hfields, haccepted⟩
        cases hfields
        rw [blamedField?_eq_none_iff.2 haccepted] at hname
        cases hname
      · simp only [blamed?, hname, Option.map_some, hfield, hvalue]
  | undefined | null | boolean | number | integer | text | list =>
    refine ⟨⟨?_, ?_⟩, rfl⟩
    · rintro ⟨c, hc⟩
      cases hc
    · rintro ⟨fields, hfields, -⟩
      cases hfields

/-- The least record that the program accepts, under the built-in constants. -/
theorem ofDocumentWith_verdict_leastRecord : ChecksSchema checkSchema ∧
    ∃ c, ofDocument (.record [("depth", .ofNat 1), ("width", .ofNat 1), ("banks", .ofNat 1),
      ("voltage", .number 0.75), ("process_node", .ofNat 7)]) .standard = .ok c := by
  have hcount : Document.IsCount (.ofNat 1) 1 := ⟨by decide, by decide, rfl⟩
  have hnode : Document.IsCount (.ofNat 7) 7 := ⟨by decide, by decide, rfl⟩
  have hsupply : Document.IsSupply (.number 0.75) 0.75 := ⟨by decide +kernel, by decide +kernel, rfl⟩
  refine ⟨checksSchema_checkSchema,
    (ofDocumentWith_verdict checksSchema_checkSchema _ _).1.2 ⟨_, rfl, ?_, ?_, ?_, ?_⟩⟩
  · intro f
    cases f with
    | depth | width | banks => exact ⟨1, hcount⟩
    | voltage => exact ⟨_, hsupply⟩
    | processNode => exact ⟨7, hnode⟩
    | powerGating | clockGating | retentionMode | eccEnable => exact ⟨false, .inr ⟨rfl, rfl⟩⟩
  · simp only [List.forall_mem_cons]
    exact ⟨⟨.depth, rfl⟩, ⟨.width, rfl⟩, ⟨.banks, rfl⟩, ⟨.voltage, rfl⟩, ⟨.processNode, rfl⟩, nofun⟩
  · exact ⟨1, 1, hcount, hcount, dvd_rfl⟩
  · exact ⟨7, hnode, by decide⟩

end Config

end MemoryCompiler

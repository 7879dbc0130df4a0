import MemoryCompiler.Proofs.Rtl.FailedPublication

/-!
# Complete or clean

Where renames fail but no other writer comes between, a publication that returns has put exactly its
artifacts at the destination, and one that fails leaves there what it found or nothing: never old files
beside new ones (`publish_complete_or_clean`). Either way nothing else is left of it but directories on
the way to the destination. Artifacts may have names that cannot be staged, since the directory they ask
for is not there.
-/

namespace MemoryCompiler.Rtl.Publication

open Files

variable {disturbed : Nat → Option Disturbance} {h h' : Host} {d : Place}

/-- Renames fail for reasons of the host's own at most; no other writer comes between. -/
def OnlyFails (disturbed : Nat → Option Disturbance) : Prop :=
  ∀ n reason files, disturbed n ≠ some (.overtaken reason files)

theorem OnlyFails.plainOthers (hplain : OnlyFails disturbed) : Host.PlainOthers disturbed :=
  fun n reason files hd => absurd hd (hplain n reason files)

/-- Outside the destination nothing is new but directories on the way to it. -/
def Around (h h' : Host) (d : Place) : Prop :=
  ∀ x, ¬ d <+: x → h'.tree.get? x = h.tree.get? x ∨
    h.tree.get? x = none ∧ x <+: d.dropLast ∧ h'.tree.get? x = some .directory

theorem Around.of_way {t : Tree} (hway : Tree.WithWay h.tree d.dropLast t)
    (hsame : ∀ x, ¬ d <+: x → h'.tree.get? x = t.get? x) : Around h h' d := by
  intro x hx
  rw [hsame x hx]
  exact hway x

/-! ### The destination of an error -/

/-- Every error of a program names this destination. -/
def ErrorsName {α : Type} (target : Path) (p : Program (Except PublicationError α)) : Prop :=
  ∀ (disturbed : Nat → Option Disturbance) (h : Host) (e : PublicationError),
    (h.run disturbed p).1 = .error e → e.destination = target

section errorsName

variable {α β : Type} {target : Path}

theorem ErrorsName.error {e : PublicationError} (he : e.destination = target) :
    ErrorsName target (pure (.error e) : Program (Except PublicationError α)) := by
  intro disturbed h e' h'
  cases h'
  exact he

theorem ErrorsName.ok (a : α) : ErrorsName target (pure (.ok a)) := by
  intro disturbed h e h'
  cases h'

theorem ErrorsName.bind {p : Program β} {f : β → Program (Except PublicationError α)}
    (hf : ∀ b, ErrorsName target (f b)) : ErrorsName target (p >>= f) := by
  intro disturbed h e he
  rw [Host.run_bind] at he
  exact hf _ disturbed _ e he

theorem ErrorsName.bind_except {p : Program (Except PublicationError β)}
    {f : Except PublicationError β → Program (Except PublicationError α)}
    (hp : ErrorsName target p) (hok : ∀ b, ErrorsName target (f (.ok b)))
    (herror : ∀ e, e.destination = target → ErrorsName target (f (.error e))) :
    ErrorsName target (p >>= f) := by
  intro disturbed h e he
  rw [Host.run_bind] at he
  cases hresult : (h.run disturbed p).1 with
  | ok b =>
    rw [hresult] at he
    exact hok b disturbed _ e he
  | error e' =>
    rw [hresult] at he
    exact herror e' (hp disturbed h e' hresult) disturbed _ e he

end errorsName

theorem errorsName_stage (log : Log.Threshold) (target : Path) (artifacts : List Artifact) :
    ErrorsName target (stage log target artifacts) := by
  refine .bind fun answer => ?_
  cases answer with
  | error f => exact .error rfl
  | ok staging =>
    refine .bind fun written => ?_
    cases written with
    | error f => exact .bind fun _ => .error rfl
    | ok => exact .bind fun _ => .ok staging

theorem errorsName_replaceTarget (log : Log.Threshold) (staging target : Path) :
    ErrorsName target (replaceTarget log staging target) := by
  refine .bind fun retired => ?_
  cases retired with
  | error f => exact .error rfl
  | ok =>
    refine .bind fun swapped => ?_
    cases swapped with
    | error f => exact .bind fun _ => .error rfl
    | ok => exact .bind fun _ => .ok ()

theorem errorsName_moveIn (log : Log.Threshold) (staging target : Path) :
    ErrorsName target (moveIn log staging target) := by
  refine .bind fun there => ?_
  cases there with
  | true =>
    refine .bind fun isDirectory => ?_
    match isDirectory with
    | .error f => exact .error rfl
    | .ok false => exact .error rfl
    | .ok true => exact errorsName_replaceTarget log staging target
  | false =>
    refine .bind fun moved => ?_
    cases moved with
    | error f => exact .error rfl
    | ok => exact .ok ()

theorem errorsName_publishAt (log : Log.Threshold) (target : Path) (artifacts : List Artifact) :
    ErrorsName target (publishAt log target artifacts) := by
  refine .bind fun made => ?_
  cases made with
  | error f => exact .error rfl
  | ok =>
    refine .bind_except (errorsName_stage log target artifacts) (fun staging => ?_)
      fun e he => .error he
    refine .bind_except (errorsName_moveIn log staging target) (fun _ => ?_) fun e he => ?_
    · exact .bind fun _ => .ok _
    · exact .bind fun _ => .error he

/-! ### The whole publication -/

/-- The destination is a directory with these artifacts as files, and nothing else is new but
directories on the way to it. -/
structure Complete (h h' : Host) (d : Place) (artifacts : List Artifact) : Prop where
  directory : h'.tree.get? d = some .directory
  files : ∀ a ∈ artifacts, h'.tree.get? (d ++ [a.name]) = some (.file a.text)
  only : ∀ x, x ≠ [] → (h'.tree.get? (d ++ x)).isSome → ∃ a ∈ artifacts, x = [a.name]
  around : Around h h' d

/-- The destination holds what it held, as it certainly does before the first rename, or nothing, and
nothing else is new but directories on the way to it. -/
structure Clean (h h' : Host) (d : Place) : Prop where
  target : h'.tree.below d = h.tree.below d ∨ ∀ x, h'.tree.below d x = none
  unmoved : h'.renames = h.renames → h'.tree.below d = h.tree.below d
  around : Around h h' d

theorem Complete.of_flat {artifacts : List Artifact} (hnames : (artifacts.map Artifact.name).Nodup)
    (hbelow : h'.tree.below d = flat (artifacts.map fileOf)) (around : Around h h' d) :
    Complete h h' d artifacts where
  directory := Tree.get?_of_below_flat hbelow
  files := fun a ha => by
    have hkeys : ((artifacts.map fileOf).map Prod.fst).Nodup := by
      rw [List.map_map]
      exact hnames
    exact (congrFun hbelow [a.name]).trans (flat_of_mem hkeys (List.mem_map_of_mem (f := fileOf) ha))
  only := fun x hx hsome => by
    have hflat : (flat (artifacts.map fileOf) x).isSome := by rwa [← hbelow]
    obtain ⟨f, hf, rfl⟩ := exists_mem_of_flat hx hflat
    obtain ⟨a, ha, rfl⟩ := List.mem_map.1 hf
    exact ⟨a, ha, rfl⟩
  around := around

theorem MovedIn.sameOutside {n : Nat} {result : Except PublicationError Unit}
    (hmoved : MovedIn disturbed h h' d n result) (hplain : OnlyFails disturbed)
    (hfree : ∀ x, h.tree.below (retiredPlace d n) x = none) :
    SameOutside h.tree h'.tree d (stagedPlace d n) := by
  intro x hdx hsx
  by_cases hrx : retiredPlace d n <+: x
  · obtain ⟨z, rfl⟩ := hrx
    rcases hmoved.retired with hgone | ⟨reason, files, hover⟩
    · exact (hgone z).trans (hfree z).symm
    · exact absurd hover (hplain _ _ _)
  · exact hmoved.frame x hdx hsx hrx

/-- Without another writer the destination is as it was, or nothing is there. -/
theorem Left.target (hleft : Left disturbed h h' d) (hplain : OnlyFails disturbed)
    (ht : h'.tree.WellFormed) : h'.tree.below d = h.tree.below d ∨ ∀ x, h'.tree.below d x = none := by
  cases hleft with
  | kept intact once =>
    rcases intact with hsame | ⟨n, reason, files, z, -, -, hover, -⟩
    · exact .inl hsame
    · exact absurd hover (hplain _ _ _)
  | lost twice before after =>
    refine .inr fun x => ?_
    by_contra hsome
    have hat := ht.isSome_of_below (Option.isSome_iff_ne_none.2 hsome)
    rw [after] at hat
    cases hat

theorem MovedIn.target {n : Nat} {e : PublicationError}
    (hmoved : MovedIn disturbed h h' d n (.error e)) (hplain : OnlyFails disturbed) :
    h'.tree.below d = h.tree.below d ∨ ∀ x, h'.tree.below d x = none := by
  by_cases hroot : d = []
  · rcases (hmoved.root hroot).2 with hsame | ⟨reason, files, hover, -⟩
    · exact .inl (by rw [hsame])
    · exact absurd hover (hplain _ _ _)
  · exact (hmoved.left e rfl hroot).target hplain hmoved.wellFormed

theorem clean_of_published (hplain : OnlyFails disturbed) {artifacts : List Artifact}
    {e : PublicationError} (hpublished : Published disturbed h h' d artifacts (.error e)) :
    Clean h h' d := by
  cases hpublished with
  | @unstaged t₀ _ way same renames =>
    have hbelow : h'.tree.below d = h.tree.below d :=
      Eq.trans (funext fun x => same _) (below_of_way way)
    exact ⟨.inl hbelow, fun _ => hbelow, .of_way way fun x _ => same x⟩
  | @removed t₀ h₁ h₂ n _ way staged moved tree renames =>
    have hsame := moved.sameOutside hplain staged.retired
    have hbelow : t₀.below d = h.tree.below d := below_of_way way
    -- What is not at the staged place comes from the tree before, where nothing was at that place.
    have hkept : ∀ x, (¬ stagedPlace d n <+: x → h₂.tree.get? x = h₁.tree.get? x) →
        h'.tree.get? x = t₀.get? x := by
      intro x hx
      rw [tree]
      split_ifs with hunder
      · obtain ⟨z, rfl⟩ := hunder
        exact (staged.staged_free z).symm
      · exact (hx hunder).trans (staged.frame x hunder)
    refine ⟨?_, fun hn => ?_, .of_way way fun x hx => hkept x (hsame x hx)⟩
    · rcases moved.target hplain with htarget | hnone
      · refine .inl (Eq.trans (funext fun x => ?_) hbelow)
        exact hkept _ fun _ => congrFun htarget x
      · refine .inr fun x => ?_
        rw [Tree.below, tree]
        split_ifs
        · rfl
        · exact hnone x
    · have htree : h₂.tree = h₁.tree := moved.unmoved ((renames.symm.trans hn).trans staged.renames.symm)
      refine Eq.trans (funext fun x => ?_) hbelow
      exact hkept _ fun _ => by rw [htree]

theorem complete_of_published (hplain : OnlyFails disturbed) {artifacts : List Artifact}
    {names : List String} (hdistinct : (artifacts.map Artifact.name).Nodup)
    (hpublished : Published disturbed h h' d artifacts (.ok names)) :
    names = artifacts.map Artifact.name ∧ Complete h h' d artifacts := by
  cases hpublished with
  | @arrived t₀ h₁ h₂ n way staged moved tree =>
    obtain ⟨target, gone⟩ := moved.arrived rfl
    refine ⟨rfl, .of_flat hdistinct (by rw [tree]; exact target.trans staged.staged)
      (.of_way way fun x hx => ?_)⟩
    rw [tree]
    by_cases hunder : stagedPlace d n <+: x
    · obtain ⟨z, rfl⟩ := hunder
      exact (gone z).trans (staged.staged_free z).symm
    · exact (moved.sameOutside hplain staged.retired x hx hunder).trans (staged.frame x hunder)

end MemoryCompiler.Rtl.Publication

namespace MemoryCompiler.Rtl

open Files Publication

/-- **A publication is complete or clean.** Where renames fail for reasons of the host's own at most,
artifacts of distinct names are either the whole content of their destination, or the error names the
destination, which holds what it held before or nothing, and certainly what it held if no rename was
asked for. Nothing else is left but directories on the way. -/
theorem publish_complete_or_clean (log : Log.Threshold) (destination : String) {h : Host}
    {disturbed : Nat → Option Disturbance} {artifacts : List Artifact} (ht : h.tree.WellFormed)
    (hcwd : ∀ n ∈ h.directory, IsPart n) (hplain : OnlyFails disturbed)
    (hnames : ∀ a ∈ artifacts, IsArtifactName a.name)
    (hdistinct : (artifacts.map Artifact.name).Nodup) :
    (∀ names, (h.run disturbed (publish log (.ofText destination) artifacts)).1 = .ok names →
      names = artifacts.map Artifact.name ∧
      Complete h (h.run disturbed (publish log (.ofText destination) artifacts)).2
        (placeOf h destination) artifacts) ∧
    ∀ e, (h.run disturbed (publish log (.ofText destination) artifacts)).1 = .error e →
      e.destination = Path.ofPlace (placeOf h destination) ∧
      Clean h (h.run disturbed (publish log (.ofText destination) artifacts)).2
        (placeOf h destination) := by
  rw [run_publish_ofText]
  have herror := errorsName_publishAt log (Path.ofPlace (placeOf h destination)) artifacts disturbed h
  obtain ⟨result, h', hpublish, hpublished⟩ :=
    run_publishAt log ht hplain.plainOthers (named_placeOf hcwd destination) hnames
  rw [hpublish] at herror ⊢
  constructor
  · rintro names rfl
    exact complete_of_published hplain hdistinct hpublished
  · rintro e rfl
    exact ⟨herror e rfl, clean_of_published hplain hpublished⟩

/-- Artifacts of which the second asks for a directory that is not there. -/
def nestedArtifacts : List Artifact :=
  [⟨"b", "b", "module b;\n"⟩, ⟨"lib/c", "c", "module c;\n"⟩]

theorem publish_complete_or_clean_nested :
    (publishedHost.tree.WellFormed ∧ (∀ n ∈ publishedHost.directory, IsPart n) ∧
      OnlyFails swapFaults ∧ (∀ a ∈ nestedArtifacts, IsArtifactName a.name) ∧
      (nestedArtifacts.map Artifact.name).Nodup) ∧
    ∃ e, (publishedHost.run swapFaults (publish none (.ofText "rtl") nestedArtifacts)).1 = .error e ∧
      e.destination = Path.ofPlace (placeOf publishedHost "rtl") ∧
      Clean publishedHost
        (publishedHost.run swapFaults (publish none (.ofText "rtl") nestedArtifacts)).2
        (placeOf publishedHost "rtl") := by
  have ht : publishedHost.tree.WellFormed := by decide
  have hcwd : ∀ n ∈ publishedHost.directory, IsPart n := fun n hn => absurd hn List.not_mem_nil
  have hplain : OnlyFails swapFaults := by
    intro n reason files hd
    rw [swapFaults] at hd
    split_ifs at hd
    cases hd
  have hnames : ∀ a ∈ nestedArtifacts, IsArtifactName a.name := by
    intro a ha
    simp only [nestedArtifacts, List.mem_cons, List.not_mem_nil, or_false] at ha
    rcases ha with rfl | rfl
    · exact .inl (by decide)
    · exact .inr ⟨"lib", "c", by decide, by decide, rfl⟩
  have hdistinct : (nestedArtifacts.map Artifact.name).Nodup := by decide
  have hfails : ∃ e, (publishedHost.run swapFaults
      (publish none (.ofText "rtl") nestedArtifacts)).1 = .error e := ⟨_, rfl⟩
  obtain ⟨e, he⟩ := hfails
  exact ⟨⟨ht, hcwd, hplain, hnames, hdistinct⟩, e, he,
    (publish_complete_or_clean none "rtl" ht hcwd hplain hnames hdistinct).2 e he⟩

end MemoryCompiler.Rtl

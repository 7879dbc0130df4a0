import MemoryCompiler.Proofs.Rtl.Publishing

/-!
# Publications that fail

Whatever of a publication fails and whoever writes in between, the destination keeps what it held or has
another writer's directory, unless the last two renames fail for reasons of the host's own: what was set
aside is then removed (`failed_publication`).
-/

namespace MemoryCompiler.Rtl.Publication

open Files

variable {disturbed : Nat → Option Disturbance} {h h' : Host} {d : Place}

theorem not_intact_of_lost (before : h.tree.get? d = some .directory) (after : h'.tree.get? d = none) :
    ¬ Intact disturbed h h' d := by
  rintro (hsame | ⟨n, reason, files, z, -, -, -, hz, hflat, -⟩)
  · have hget := congrFun hsame []
    rw [Tree.below_nil, Tree.below_nil, before, after] at hget
    cases hget
  · have hroot : d ≠ [] := by
      rintro rfl
      cases after
    have hget := Tree.get?_of_below_flat hflat
    rw [hz hroot, List.append_nil, after] at hget
    cases hget

theorem Left.intact_iff (hleft : Left disturbed h h' d) :
    Intact disturbed h h' d ↔ ¬ FailsTwice disturbed h h' := by
  cases hleft with
  | kept intact once => exact ⟨fun _ => once, fun _ => intact⟩
  | lost twice before after =>
    exact ⟨fun hintact => absurd hintact (not_intact_of_lost before after), fun h => absurd twice h⟩

/-- Staging and its removal change nothing at a destination that is not the root. -/
theorem left_of_staged {h₀ h₁ h₂ : Host} {n : Nat} {artifacts : List Artifact} {t : Tree}
    (hs : IsStaged h₀ h₁ d n artifacts) (hroot : d ≠ []) (hleft : Left disturbed h₁ h₂ d)
    (ht : ∀ x, t.get? x = if stagedPlace d n <+: x then none else h₂.tree.get? x) :
    Left disturbed h₀ { h₂ with tree := t } d := by
  have hsd := apart_staged_destination hroot n
  refine hleft.congr ?_ (Tree.below_of_removed hsd ht) hs.renames rfl
  exact funext fun x => hs.frame _ (hsd.not_below x)

/-- In the root staging and its removal leave what another writer put beside it. -/
theorem left_of_staged_root {h₀ h₁ h₂ : Host} {n : Nat} {artifacts : List Artifact} {t : Tree}
    (hs : IsStaged h₀ h₁ [] n artifacts) (hkept : RootKept disturbed h₁ h₂ n)
    (ht : ∀ x, t.get? x = if stagedPlace [] n <+: x then none else h₂.tree.get? x) :
    Left disturbed h₀ { h₂ with tree := t } [] := by
  have hsr := apart_staged_retired [] n n
  -- What is not at the staged place is as it was, and nothing was at the staged place.
  have hsame : ∀ x, h₂.tree.get? x = h₁.tree.get? x → t.get? x = h₀.tree.get? x := by
    intro x hx
    rw [ht, hx]
    split_ifs with hunder
    · obtain ⟨z, rfl⟩ := hunder
      exact (hs.staged_free z).symm
    · exact hs.frame x hunder
  obtain ⟨hn, hrest⟩ := hkept
  have hrenames : h₂.renames = h₀.renames + 1 := by rw [hn, hs.renames]
  refine .kept ?_ (not_failsTwice (by show h₂.renames ≠ _; omega))
  rcases hrest with htree | ⟨reason, files, hd, hflat, hframe⟩
  · refine .of_below (funext fun x => ?_)
    exact hsame x (by rw [htree])
  · rw [hs.renames] at hd
    refine .inr ⟨h₀.renames + 1, reason, files, retiredPlace [] n, by omega, hrenames.ge, hd,
      fun hne => absurd rfl hne, ?_, fun x hx => hsame x (hframe x hx)⟩
    rw [List.nil_append, ← hflat]
    exact Tree.below_of_removed hsr ht

theorem left_of_published {artifacts : List Artifact} {e : PublicationError}
    (hpublished : Published disturbed h h' d artifacts (.error e)) : Left disturbed h h' d := by
  have hn : h.renames ≠ h.renames + 3 := by omega
  cases hpublished with
  | @unstaged t₀ _ way same renames =>
    have hbelow : h'.tree.below d = t₀.below d := funext fun x => same _
    exact .kept (.of_below (hbelow.trans (below_of_way way))) (not_failsTwice (by rw [renames]; exact hn))
  | @removed t₀ h₁ h₂ n _ way staged moved tree renames =>
    have hleft : Left disturbed { h with tree := t₀ } { h₂ with tree := h'.tree } d := by
      by_cases hroot : d = []
      · subst hroot
        exact left_of_staged_root staged (moved.root rfl) tree
      · exact left_of_staged staged hroot (moved.left e rfl hroot) tree
    exact hleft.congr (below_of_way way) rfl rfl renames

end MemoryCompiler.Rtl.Publication

namespace MemoryCompiler.Rtl

open Files Publication

/-- **A publication that fails keeps what its destination held, but for one slip.** The destination is
as it was or has a directory that another writer put there, whatever renames are disturbed, exactly if
the swap and the putting back did not both fail for reasons of the host's own. Where they did, the
directory that was there is gone. -/
theorem failed_publication (log : Log.Threshold) (destination : String) {h : Host}
    {disturbed : Nat → Option Disturbance} {artifacts : List Artifact} {e : PublicationError}
    (ht : h.tree.WellFormed) (hcwd : ∀ n ∈ h.directory, IsPart n)
    (hothers : Host.PlainOthers disturbed) (hnames : ∀ a ∈ artifacts, IsName a.name)
    (hfail : (h.run disturbed (publish log (.ofText destination) artifacts)).1 = .error e) :
    (Intact disturbed h (h.run disturbed (publish log (.ofText destination) artifacts)).2
        (placeOf h destination) ↔
      ¬ FailsTwice disturbed h (h.run disturbed (publish log (.ofText destination) artifacts)).2) ∧
    (FailsTwice disturbed h (h.run disturbed (publish log (.ofText destination) artifacts)).2 →
      h.tree.get? (placeOf h destination) = some .directory ∧
      (h.run disturbed (publish log (.ofText destination) artifacts)).2.tree.get?
        (placeOf h destination) = none) := by
  obtain ⟨result, h', hpublish, hpublished⟩ :=
    run_publishAt log ht hothers (named_placeOf hcwd destination) fun a ha => .inl (hnames a ha)
  rw [run_publish_ofText, hpublish] at hfail ⊢
  obtain rfl : result = .error e := hfail
  have hleft := left_of_published hpublished
  refine ⟨hleft.intact_iff, fun htwice => ?_⟩
  cases hleft with
  | kept intact once => exact absurd htwice once
  | lost twice before after => exact ⟨before, after⟩

/-- A host with one published file. -/
def publishedHost : Host :=
  .start ⟨[(["rtl"], .directory), (["rtl", "a"], .file "module a;\n")]⟩ []

/-- The second and the third rename fail. -/
def swapFaults (n : Nat) : Option Disturbance :=
  if n = 2 ∨ n = 3 then some (.fails "no space") else none

theorem plainOthers_swapFaults : Host.PlainOthers swapFaults := by
  intro n reason files hd
  rw [swapFaults] at hd
  split_ifs at hd
  cases hd

def nextArtifacts : List Artifact := [⟨"b", "b", "module b;\n"⟩]

theorem failed_publication_twice :
    (publishedHost.tree.WellFormed ∧ (∀ n ∈ publishedHost.directory, IsPart n) ∧
      Host.PlainOthers swapFaults ∧ (∀ a ∈ nextArtifacts, IsName a.name)) ∧
    (Intact swapFaults publishedHost
        (publishedHost.run swapFaults (publish none (.ofText "rtl") nextArtifacts)).2 ["rtl"] ↔
      ¬ FailsTwice swapFaults publishedHost
        (publishedHost.run swapFaults (publish none (.ofText "rtl") nextArtifacts)).2) ∧
    publishedHost.tree.get? ["rtl"] = some .directory ∧
    (publishedHost.run swapFaults (publish none (.ofText "rtl") nextArtifacts)).2.tree.get? ["rtl"] =
      none := by
  have ht : publishedHost.tree.WellFormed := by decide
  have hcwd : ∀ n ∈ publishedHost.directory, IsPart n := fun n hn => absurd hn List.not_mem_nil
  have hnames : ∀ a ∈ nextArtifacts, IsName a.name := by decide
  have hkept := failed_publication none "rtl" ht hcwd plainOthers_swapFaults hnames rfl
  exact ⟨⟨ht, hcwd, plainOthers_swapFaults, hnames⟩, hkept.1,
    hkept.2 ⟨rfl, ⟨_, rfl⟩, ⟨_, rfl⟩⟩⟩

/-- It is not so that every publication that fails keeps what its destination held. -/
theorem not_every_failure_keeps :
    ¬ ∀ (log : Log.Threshold) (h : Host) (disturbed : Nat → Option Disturbance) (destination : String)
        (artifacts : List Artifact) (e : PublicationError), h.tree.WellFormed →
      (∀ n ∈ h.directory, IsPart n) → Host.PlainOthers disturbed → (∀ a ∈ artifacts, IsName a.name) →
      (h.run disturbed (publish log (.ofText destination) artifacts)).1 = .error e →
      Intact disturbed h (h.run disturbed (publish log (.ofText destination) artifacts)).2
        (placeOf h destination) := by
  intro hkeeps
  have hintact := hkeeps none publishedHost swapFaults "rtl" nextArtifacts _ (by decide)
    (fun n hn => absurd hn List.not_mem_nil) plainOthers_swapFaults (by decide) rfl
  exact not_intact_of_lost (by decide +kernel) (by decide +kernel) hintact

end MemoryCompiler.Rtl

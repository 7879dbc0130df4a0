import MemoryCompiler.Proofs.Rtl.LostUpdates

/-!
# Two writers

It takes three writers to lose an update. What a writer has set aside can only be put back when nothing
is in the way, and once another writer has published, somebody has to set that set aside first: neither
the one, who has its own generation to put back, nor the other, who is done.
-/

namespace MemoryCompiler.Rtl

open Files Publication

/-- Nothing stale is in place. What a writer has set aside missed nothing, or the other writer's set is
in place. -/
structure Paired (l : Ledger) (phase : Nat → Phase) : Prop where
  fresh : ∀ held, l.current = some held → held.missed = []
  aside : ∀ i n x, (phase i).aside? = some n → l.aside i = some x → x.2.missed = [] ∨
    ∃ j, j ≠ i ∧ (phase j).isSettled = true ∧ l.current = some ⟨.set j, []⟩

section paired

variable {t₀ t t' : Tree} {d : Place} {writers : List Writer} {l l' : Ledger} {phase : Nat → Phase}
  {phase' : Phase} {c : Writer} {i : Nat}

theorem exists_below_of_artifacts {c : Writer} (hc : c.artifacts ≠ []) :
    ∃ x, x ≠ [] ∧ (flat c.files x).isSome := by
  obtain ⟨a, ha⟩ := List.exists_mem_of_ne_nil _ hc
  refine ⟨[a.name], List.cons_ne_nil _ _, ?_⟩
  rw [flat, Option.isSome_map, List.lookup_isSome_iff]
  exact ⟨fileOf a, List.mem_reverse.2 (List.mem_map_of_mem ha), beq_self_eq_true _⟩

/-- Nothing is put back over a set with files in it. -/
theorem Recorded.not_free (hr : Recorded t₀ d writers t l phase) (hroot : d ≠ [])
    (hwriters : ∀ c ∈ writers, c.artifacts ≠ []) {j : Nat} (hj : writers[j]? = some c)
    (hcurrent : l.current = some ⟨.set j, []⟩) : ¬ ∀ x, x ≠ [] → t.below d x = none := by
  intro hfree
  obtain ⟨x, hx, hsome⟩ := exists_below_of_artifacts (hwriters c (List.mem_of_getElem? hj))
  have hnone := hfree x hx
  rw [hr.destination hroot, hcurrent, Option.map_some, contentOf_set hj] at hnone
  rw [hnone] at hsome
  cases hsome

theorem Paired.change (hp : Paired l phase) (hr : Recorded t₀ d writers t l phase)
    (hnumber : writers.length ≤ 2) (hfiles : ∀ c ∈ writers, c.artifacts ≠ [])
    (hranged : ∀ j, phase j ≠ .waiting → j < writers.length) (hi : i < writers.length)
    (hchange : Change (contentOf t₀ d writers) c d t t' l i (phase i) phase' l') :
    Paired l' (Function.update phase i phase') := by
  have hsettled : ∀ j, (phase j).isSettled = true → j < writers.length := fun j hj =>
    hranged j fun hwaiting => by rw [hwaiting] at hj; cases hj
  have haside : ∀ j n, (phase j).aside? = some n → j < writers.length := fun j n hj =>
    hranged j fun hwaiting => by rw [hwaiting] at hj; cases hj
  cases hchange with
  | quiet destination settled aside leaves =>
    have hsame : ∀ j, (Function.update phase i phase' j).isSettled = (phase j).isSettled := by
      intro j
      rw [isSettled_update settled j]
      by_cases hj : j = i
      · rw [if_pos hj, hj]
      · rw [if_neg hj]
    refine ⟨hp.fresh, fun j n x hn hx => ?_⟩
    have hn : (phase j).aside? = some n := by
      by_cases hj : j = i
      · subst hj
        rw [Function.update_self] at hn
        exact (aside n hn).1
      · rwa [Function.update_of_ne hj] at hn
    rcases hp.aside j n x hn hx with hmissed | ⟨k, hk, hdone, hcurrent⟩
    · exact .inl hmissed
    · exact .inr ⟨k, hk, (hsame k).trans hdone, hcurrent⟩
  | @setAside n before after aside root target empty retired =>
    refine ⟨fun held hheld => (Option.some_ne_none held hheld.symm).elim, fun j m x hm hx => ?_⟩
    have hx : Function.update l.aside i _ j = some x := hx
    by_cases hj : j = i
    · rw [hj, Function.update_self, Option.map_eq_some_iff] at hx
      obtain ⟨held, hcurrent, rfl⟩ := hx
      exact .inl (hp.fresh held hcurrent)
    · rw [Function.update_of_ne hj] at hm hx
      rcases hp.aside j m x hm hx with hmissed | ⟨k, hk, hdone, -⟩
      · exact .inl hmissed
      · -- One has set aside, one is done, and a third one would be setting aside now.
        have hki : k ≠ i := by
          rintro rfl
          rw [before] at hdone
          cases hdone
        have := haside j m hm
        have := hsettled k hdone
        omega
  | publish before after ends files =>
    refine ⟨fun held hheld => by cases hheld; rfl, fun j m x hm hx => ?_⟩
    exact .inr ⟨i, (ne_of_aside?_update ends hm).symm, by rwa [Function.update_self], rfl⟩
  | @putBack n path held before after starts ends root aside free files =>
    -- If another set were in place, it would be in the way.
    have hmissed : ∀ j m x, (phase j).aside? = some m → l.aside j = some x → x.2.missed = [] := by
      intro j m x hm hx
      rcases hp.aside j m x hm hx with hmissed | ⟨k, -, hdone, hcurrent⟩
      · exact hmissed
      · exact absurd free
          (hr.not_free root hfiles (List.getElem?_eq_getElem (hsettled k hdone)) hcurrent)
    refine ⟨fun held' hheld => ?_, fun j m x hm hx => ?_⟩
    · cases hheld
      exact hmissed i n _ starts aside
    · have hj := ne_of_aside?_update ends hm
      have hx : Function.update l.aside i _ j = some x := hx
      rw [Function.update_of_ne hj] at hm hx
      exact .inl (hmissed j m x hm hx)

end paired

/-- **Two writers lose no update.** In whatever order two writers with files make their requests, what is
in place was never there before the set of one that has returned. -/
theorem two_writers_keep_updates {h : Host} {d : Place} {writers : List Writer}
    (ht : h.tree.WellFormed) (hd : Named d) (hfile : ∀ text, h.tree.get? d ≠ some (.file text))
    (hwriters : ∀ c ∈ writers, (∀ a ∈ c.artifacts, IsName a.name) ∧ placeOf h c.destination = d)
    (hfiles : ∀ c ∈ writers, c.artifacts ≠ []) (hnumber : writers.length ≤ 2) (schedule : List Nat) :
    ((Story.start h d writers).run d schedule).KeepsUpdates := by
  have hstart : Paired (Story.start h d writers).ledger fun _ => .waiting := by
    refine ⟨fun held hheld => ?_, fun i n x hn => by cases hn⟩
    obtain ⟨e, -, rfl⟩ := Option.map_eq_some_iff.1 hheld
    rfl
  have hrun := story_induction (P := fun s phase => Paired s.ledger phase) ht hd hfile hwriters hstart
    (fun s phase i c phase' hs hr hp hc hchange => by
      refine hp.change hr hnumber hfiles (fun j hj => ?_) (List.getElem?_eq_some_iff.1 hc).1 hchange
      cases hcall : s.world.calls[j]? with
      | none => exact absurd (hs.idle j hcall) hj
      | some p =>
        obtain ⟨c', hc', -⟩ := hs.follows j p hcall
        exact (List.getElem?_eq_some_iff.1 hc').1) schedule
  obtain ⟨phase, hs, hr, hp⟩ := hrun
  rw [hr.keepsUpdates_iff hs]
  rintro ⟨i, held, -, hcurrent, hmissed⟩
  rw [hp.fresh held hcurrent] at hmissed
  cases hmissed

end MemoryCompiler.Rtl

import MemoryCompiler.Proofs.Rtl.Records

/-!
# The surroundings of a destination

A publication changes nothing but its destination, the directories on the way to it and the two places
beside it that it works at, and it leaves nothing at those two when it comes to its end. So everything
else is as it was at first whenever no publication is at work (`Tidy`), whatever the order of turns.
-/

namespace MemoryCompiler.Rtl

open Files Publication

/-- A place that publications to a destination leave alone but for their own two places. All publications
to the root work below it. -/
def Outside (d x : Place) : Prop := d = [] ∨ ¬ d <+: x

section outside

variable {d x z : Place} {m : Nat}

theorem Private.outside (hz : Private d m z) (r : Place) : Outside d (z ++ r) := by
  by_cases hroot : d = []
  · exact .inl hroot
  · exact .inr ((hz.apart_destination hroot).symm.not_below r)

theorem outside_of_on_way (hx : x <+: d.dropLast) : Outside d x := by
  by_cases hroot : d = []
  · exact .inl hroot
  · exact .inr fun hd => not_below_dropLast hroot rfl (hd.trans hx)

theorem Private.not_on_way (hz : Private d m z) (r : Place) : ¬ z ++ r <+: d.dropLast := fun hr =>
  hz.not_below_parent ((List.prefix_append z r).trans hr)

end outside

/-! ### What one turn leaves -/

namespace Moves

variable {c : Writer} {d x z : Place} {h h' : Host} {phase phase' : Phase}
  {renamed : Option (Path × Path)} {n : Nat}

theorem number_keeps_or_ends (hm : Moves c d h h' phase phase' renamed)
    (hn : phase.number? = some n) : phase'.number? = some n ∨ phase'.number? = none := by
  cases hm with
  | enter | clear | clean => exact .inr rfl
  | _ => first | exact .inl hn | cases hn

theorem number_unused (hm : Moves c d h h' phase phase' renamed) (hn : phase'.number? = some n) :
    phase.number? = some n ∨
      h.made ≤ n ∧ ∀ z, Private d n z → ∀ r, h.tree.below z r = none := by
  cases hm with
  | rests => exact .inl hn
  | fresh least made unused =>
    cases hn
    exact .inr ⟨least, unused⟩
  | _ => first | exact .inl hn | cases hn

/-- A turn changes nothing outside the destination, the way to it and the publication's own places. -/
theorem outside (hm : Moves c d h h' phase phase' renamed) (hx : Outside d x)
    (hown : ∀ n z, phase.number? = some n ∨ phase'.number? = some n → Private d n z → ¬ z <+: x) :
    h'.tree.get? x = h.tree.get? x ∨
      h.tree.get? x = none ∧ x <+: d.dropLast ∧ h'.tree.get? x = some .directory := by
  have hs : ∀ n, phase.number? = some n ∨ phase'.number? = some n → ¬ stagedPlace d n <+: x :=
    fun n hn => hown n _ hn (.inl rfl)
  have hr : ∀ n, phase.number? = some n ∨ phase'.number? = some n → ¬ retiredPlace d n <+: x :=
    fun n hn => hown n _ hn (.inr rfl)
  have hd : d ≠ [] → ¬ d <+: x := fun hroot => hx.resolve_left hroot
  cases hm with
  | rests tree | finds tree | misses tree | givesUp tree | turnsBack tree | blocked tree | stuck tree =>
    exact .inl (by rw [tree])
  | way made way | noWay made way => exact way x
  | fresh least made unused staged frame => exact .inl (frame x (hs _ (.inr rfl)))
  | write made staged frame => exact .inl (frame x (hs _ (.inl rfl)))
  | retire made root target moved => exact .inl (moved.get?_of_apart (hd root) (hr _ (.inl rfl)))
  | enter made root free moved | swap made root free moved =>
    exact .inl (moved.get?_of_apart (hs _ (.inl rfl)) (hd root))
  | putBack made root free moved => exact .inl (moved.get?_of_apart (hr _ (.inl rfl)) (hd root))
  | drop made removed | clear made removed =>
    exact .inl (by rw [removed, if_neg (hr _ (.inl rfl))])
  | clean made removed => exact .inl (by rw [removed, if_neg (hs _ (.inl rfl))])

/-- A publication that comes to the end of its work leaves nothing at its own places. -/
theorem released (hm : Moves c d h h' phase phase' renamed) (hhas : Has h.tree d c phase)
    (hn : phase.number? = some n) (hend : phase'.number? = none) (hz : Private d n z) (r : Place) :
    h'.tree.below z r = none := by
  cases hm with
  | @enter n made root free moved =>
    cases hn
    rcases hz with rfl | rfl
    · exact moved.below_source (apart_staged_destination root n) r
    · rw [moved.below_other (apart_staged_retired d n n) (apart_retired_destination root n).symm]
      exact hhas.2.2 r
  | @clear n made removed =>
    cases hn
    rcases hz with rfl | rfl
    · rw [Tree.below_of_removed (apart_staged_retired d n n).symm removed]
      exact hhas r
    · rw [Tree.below, removed, if_pos (List.prefix_append _ r)]
  | @clean n made removed =>
    cases hn
    rcases hz with rfl | rfl
    · rw [Tree.below, removed, if_pos (List.prefix_append _ r)]
    · rw [Tree.below_of_removed (apart_staged_retired d n n) removed]
      exact hhas r
  | rests =>
    rw [hn] at hend
    cases hend
  | way | noWay => cases hn
  | _ => cases hend

end Moves

/-! ### What every order of turns leaves -/

/-- All that lies outside the destination and the places of the publications at work is as it was at
first, but for directories on the way to the destination. Where a publication is at work nothing was. -/
structure Tidy (t₀ : Tree) (d : Place) (t : Tree) (phase : Nat → Phase) : Prop where
  outside : ∀ x, Outside d x →
    (∀ i n z, (phase i).number? = some n → Private d n z → ¬ z <+: x) →
    t.get? x = t₀.get? x ∨ t₀.get? x = none ∧ x <+: d.dropLast ∧ t.get? x = some .directory
  unused : ∀ i n z, (phase i).number? = some n → Private d n z → ∀ r, t₀.below z r = none

section tidy

variable {t₀ : Tree} {cwd d : Place} {writers : List Writer} {w : World Outcome} {phase : Nat → Phase}
  {phase' : Phase} {c : Writer} {h' : Host} {i : Nat} {renamed : Option (Path × Path)}

theorem Tidy.start (t₀ : Tree) (d : Place) : Tidy t₀ d t₀ fun _ => .waiting where
  outside := fun _ _ _ => .inl rfl
  unused := fun _ _ _ hn => by cases hn

theorem Tidy.no_file_on_way {t : Tree} (hT : Tidy t₀ d t phase)
    (hfile : ∀ q, q <+: d → ∀ text, t₀.get? q ≠ some (.file text)) {q : Place} (hq : q <+: d.dropLast)
    (text : String) : t.get? q ≠ some (.file text) := by
  have hown : ∀ i n z, (phase i).number? = some n → Private d n z → ¬ z <+: q := fun i n z _ hz hzq =>
    hz.not_below_parent (hzq.trans hq)
  rcases hT.outside q (outside_of_on_way hq) hown with hsame | ⟨-, -, hdir⟩
  · rw [hsame]
    exact hfile q (hq.trans (List.dropLast_prefix d)) text
  · rw [hdir]
    exact fun he => by cases he

theorem Tidy.unused_of_moves (hT : Tidy t₀ d w.host.tree phase) (hs : Steady cwd d writers w phase)
    (hm : Moves c d w.host h' (phase i) phase' renamed) {n : Nat} (hn : phase'.number? = some n)
    {z : Place} (hz : Private d n z) (r : Place) : t₀.below z r = none := by
  rcases hm.number_unused hn with hold | ⟨hle, hfree⟩
  · exact hT.unused i n z hold hz r
  · -- The number is new, so that nobody was at work there.
    have hown : ∀ j m y, (phase j).number? = some m → Private d m y → ¬ y <+: z ++ r := by
      intro j m y hm hy
      have hlt := hs.number_lt j m hm
      exact (hz.apart hy (by omega)).not_below r
    rcases hT.outside (z ++ r) (hz.outside r) hown with hsame | ⟨-, hway, -⟩
    · rw [Tree.below, ← hsame]
      exact hfree z hz r
    · exact absurd hway (hz.not_on_way r)

theorem Tidy.step (hT : Tidy t₀ d w.host.tree phase) (hs : Steady cwd d writers w phase)
    (hhas : Has w.host.tree d c (phase i)) (hm : Moves c d w.host h' (phase i) phase' renamed) :
    Tidy t₀ d h'.tree (Function.update phase i phase') where
  outside := fun x hx hfree => by
    have hnew : ∀ n z, phase'.number? = some n → Private d n z → ¬ z <+: x := fun n z hn hz =>
      hfree i n z (by rwa [Function.update_self]) hz
    by_cases hold : ∃ n z, (phase i).number? = some n ∧ Private d n z ∧ z <+: x
    · -- The writer has just left this place.
      obtain ⟨n, z, hn, hz, r, rfl⟩ := hold
      rcases hm.number_keeps_or_ends hn with hkeeps | hends
      · exact absurd (List.prefix_append z r) (hnew n z hkeeps hz)
      · have hafter : h'.tree.get? (z ++ r) = none := hm.released hhas hn hends hz r
        have hbefore : t₀.get? (z ++ r) = none := hT.unused i n z hn hz r
        exact .inl (by rw [hafter, hbefore])
    · have hown : ∀ j n z, (phase j).number? = some n → Private d n z → ¬ z <+: x := by
        intro j n z hn hz hzx
        by_cases hj : j = i
        · subst hj
          exact hold ⟨n, z, hn, hz, hzx⟩
        · exact hfree j n z (by rwa [Function.update_of_ne hj]) hz hzx
      have hturn := hm.outside hx fun n z hn hz => hn.elim (fun hn => hown i n z hn hz)
        fun hn => hnew n z hn hz
      rcases hturn with hsame | ⟨hnone, hway, hdir⟩
      · rw [hsame]
        exact hT.outside x hx hown
      · rcases hT.outside x hx hown with hfirst | ⟨-, -, hthere⟩
        · exact .inr ⟨by rw [← hfirst, hnone], hway, hdir⟩
        · rw [hnone] at hthere
          cases hthere
  unused := fun j n z hn hz r => by
    by_cases hj : j = i
    · rw [hj, Function.update_self] at hn
      exact hT.unused_of_moves hs hm hn hz r
    · rw [Function.update_of_ne hj] at hn
      exact hT.unused j n z hn hz r

end tidy

end MemoryCompiler.Rtl

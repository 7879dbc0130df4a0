import Mathlib.Algebra.Order.BigOperators.Group.List
import Mathlib.Logic.Relation
import MemoryCompiler.Proofs.Diagram.Connectivity

/-!
# The search for the driver of a net

A net without a driver of its own is driven through the nets that its assignment reads, and those may
lead back to it. `Wiring.Searched` is the recursive search with the nets gone through handed from one
call to the next: what it answers, which nets it has gone through, and how many nets it has looked at.

Every search has an end (`Wiring.exists_searched`). It answers as `Wiring.search` does, which keeps the
nets still to be looked at in one list (`Wiring.Searched.search_eq`), and each assignment is read at most
once (`Wiring.Searched.calls_le`). A search that finds nothing leaves behind a set of nets that is closed
under reading and has no driver in it (`Wiring.Searched.closed`): leaving out a net that was gone through
hides nothing. `driver_found_iff_reachable` says what follows for the nets of a top level.
-/

namespace MemoryCompiler.Diagram

open Rtl (Module)

/-! ### Last entries -/

section latest

variable {α β : Type} {key : String} {u v : α} {entries : List (String × α)}

theorem latest?_append (first second : List (String × α)) :
    latest? key (first ++ second) = (latest? key second).or (latest? key first) := by
  simp [latest?, List.lookup_append]

theorem latest?_eq_none_iff : latest? key entries = none ↔ ∀ e ∈ entries, e.1 ≠ key := by
  simp [latest?, List.lookup_eq_none_iff, bne_iff_ne, -ne_eq, ne_comm]

theorem mem_of_latest? (h : latest? key entries = some v) : (key, v) ∈ entries := by
  obtain ⟨pre, post, h, -⟩ := List.lookup_eq_some_iff.1 h
  rw [← List.mem_reverse, h]
  simp

theorem latest?_map_const {f : β → String} {parts : List β} :
    latest? key (parts.map fun p => (f p, v)) = some u ↔ (∃ p ∈ parts, f p = key) ∧ u = v := by
  constructor
  · intro hu
    obtain ⟨p, hp, heq⟩ := List.mem_map.1 (mem_of_latest? hu)
    cases heq
    exact ⟨⟨p, hp, rfl⟩, rfl⟩
  · rintro ⟨⟨p, hp, rfl⟩, rfl⟩
    cases hlatest : latest? (f p) (parts.map fun p => (f p, u)) with
    | none => exact absurd rfl (latest?_eq_none_iff.1 hlatest (f p, u) (List.mem_map_of_mem hp))
    | some w =>
      obtain ⟨p', -, heq⟩ := List.mem_map.1 (mem_of_latest? hlatest)
      exact congrArg some (Prod.ext_iff.1 heq).2.symm

theorem latest?_flatMap_eq_none_iff {f : β → List (String × α)} {parts : List β} :
    latest? key (parts.flatMap f) = none ↔ ∀ part ∈ parts, latest? key (f part) = none := by
  simp only [latest?_eq_none_iff, List.mem_flatMap]
  exact ⟨fun h part hpart e he => h e ⟨part, hpart, he⟩, fun h e ⟨part, hpart, he⟩ => h part hpart e he⟩

theorem latest?_flatMap_eq_some_iff {f : β → List (String × α)} {parts : List β} :
    latest? key (parts.flatMap f) = some v ↔ ∃ part after, part :: after <:+ parts ∧
      latest? key (f part) = some v ∧ ∀ p ∈ after, latest? key (f p) = none := by
  induction parts with
  | nil => simp [latest?]
  | cons part rest ih =>
    rw [List.flatMap_cons, latest?_append, Option.or_eq_some_iff, ih, latest?_flatMap_eq_none_iff]
    constructor
    · rintro (⟨last, after, hsuffix, hlast, hafter⟩ | ⟨hrest, hpart⟩)
      · exact ⟨last, after, hsuffix.trans (List.suffix_cons part rest), hlast, hafter⟩
      · exact ⟨part, rest, List.suffix_rfl, hpart, hrest⟩
    · rintro ⟨last, after, hsuffix, hlast, hafter⟩
      rcases List.suffix_cons_iff.1 hsuffix with heq | hsuffix
      · cases heq
        exact .inr ⟨hafter, hlast⟩
      · exact .inl ⟨last, after, hsuffix, hlast, hafter⟩

theorem latest?_map_eq_some_iff {f : β → String × α} {parts : List β} :
    latest? key (parts.map f) = some v ↔ ∃ part after, part :: after <:+ parts ∧
      f part = (key, v) ∧ ∀ p ∈ after, (f p).1 ≠ key := by
  have hone : ∀ e : String × α, latest? key [e] = some v ↔ e = (key, v) := by
    rintro ⟨k, u⟩
    by_cases hk : key = k
    · simp [latest?, hk]
    · have hne : (key == k) = false := beq_eq_false_iff_ne.2 hk
      simp [latest?, List.lookup_cons, hne, Ne.symm hk]
  simp only [List.map_eq_flatMap, latest?_flatMap_eq_some_iff, hone, latest?_eq_none_iff,
    List.forall_mem_singleton]

end latest

/-! ### Searches -/

namespace Wiring

variable {w : Wiring}

/-- The assignment of a net that counts reads another net. -/
def Reads (w : Wiring) (net other : String) : Prop :=
  ∃ expr, latest? net w.assigned = some expr ∧ other ∈ Rtl.identifiers expr

/-- A search for the first driver among some nets, where `seen` are the nets gone through before: its
answer, the nets gone through after it, and how many nets it looks at. A net is looked through by a
search among the nets that its assignment reads. -/
inductive Searched (w : Wiring) :
    List String → List String → Option String → List String → Nat → Prop
  | nil {seen} : Searched w seen [] none seen 0
  | driven {seen net rest s} (hdriver : w.driver? net = some s) :
      Searched w seen (net :: rest) (some s) seen 1
  | skipped {seen net rest answer after calls} (hdriver : w.driver? net = none)
      (hskip : net ∈ seen ∨ latest? net w.assigned = none)
      (hrest : Searched w seen rest answer after calls) :
      Searched w seen (net :: rest) answer after (1 + calls)
  | found {seen net rest expr s after calls} (hdriver : w.driver? net = none) (hnew : net ∉ seen)
      (hexpr : latest? net w.assigned = some expr)
      (hinner : Searched w (net :: seen) (Rtl.identifiers expr) (some s) after calls) :
      Searched w seen (net :: rest) (some s) after (1 + calls)
  | passed {seen net rest expr between answer after calls more} (hdriver : w.driver? net = none)
      (hnew : net ∉ seen) (hexpr : latest? net w.assigned = some expr)
      (hinner : Searched w (net :: seen) (Rtl.identifiers expr) none between calls)
      (hrest : Searched w between rest answer after more) :
      Searched w seen (net :: rest) answer after (1 + calls + more)

section search

variable {seen nets rest after : List String} {net expr s : String} {answer : Option String}
  {calls : Nat}

theorem search_of_driver (h : w.driver? net = some s) : w.search seen (net :: rest) = some s := by
  rw [search, h]

theorem search_of_skip (h : w.driver? net = none)
    (hskip : net ∈ seen ∨ latest? net w.assigned = none) :
    w.search seen (net :: rest) = w.search seen rest := by
  rw [search, h]
  dsimp only
  split_ifs with hseen
  · rfl
  · have hnone := hskip.resolve_left fun hmem => hseen (List.contains_iff_mem.2 hmem)
    split
    · rfl
    · next hsome =>
      rw [hnone] at hsome
      cases hsome

theorem search_of_expr (h : w.driver? net = none) (hnew : net ∉ seen)
    (hexpr : latest? net w.assigned = some expr) :
    w.search seen (net :: rest) = w.search (net :: seen) (Rtl.identifiers expr ++ rest) := by
  rw [search, h]
  dsimp only
  rw [dif_neg fun hseen => hnew (List.contains_iff_mem.1 hseen)]
  split
  · next hnone =>
    rw [hexpr] at hnone
    cases hnone
  · next hsome =>
    cases hexpr.symm.trans hsome
    rfl

/-- What a search comes to inside of a longer one: its answer, or else that of what is left. -/
theorem Searched.search_append (h : w.Searched seen nets answer after calls) (rest : List String) :
    w.search seen (nets ++ rest) = answer.or (w.search after rest) := by
  induction h generalizing rest with
  | nil => simp
  | driven hdriver =>
    rw [List.cons_append, search_of_driver hdriver]
    rfl
  | skipped hdriver hskip _ ih =>
    rw [List.cons_append, search_of_skip hdriver hskip]
    exact ih rest
  | found hdriver hnew hexpr _ ih =>
    rw [List.cons_append, search_of_expr hdriver hnew hexpr]
    exact ih _
  | passed hdriver hnew hexpr _ _ ihinner ihrest =>
    rw [List.cons_append, search_of_expr hdriver hnew hexpr, ihinner]
    exact ihrest rest

theorem Searched.search_eq (h : w.Searched seen nets answer after calls) :
    w.search seen nets = answer := by
  have hsearch := h.search_append []
  rw [List.append_nil, search] at hsearch
  rw [hsearch, Option.or_none]

/-! ### The end of a search -/

theorem Searched.subset (h : w.Searched seen nets answer after calls) : seen ⊆ after := by
  induction h with
  | nil | driven => exact List.Subset.refl _
  | skipped _ _ _ ih => exact ih
  | found _ _ _ _ ih => exact List.subset_of_cons_subset ih
  | passed _ _ _ _ _ ihinner ihrest => exact List.Subset.trans (List.subset_of_cons_subset ihinner) ihrest

theorem sublist_unseen (h : seen ⊆ after) : (w.unseen after).Sublist (w.unseen seen) := by
  apply List.monotone_filter_right
  intro a ha
  simp only [Bool.not_eq_true', List.contains_eq_mem, decide_eq_false_iff_not] at ha ⊢
  exact fun hmem => ha (h hmem)

/-- Every search has an end: a net is looked through only if that leaves fewer assigned nets unseen. -/
theorem exists_searched (w : Wiring) (seen nets : List String) :
    ∃ answer after calls, w.Searched seen nets answer after calls := by
  induction hunseen : (w.unseen seen).length using Nat.strong_induction_on generalizing seen nets with
  | _ k ih =>
    induction nets with
    | nil => exact ⟨none, seen, 0, .nil⟩
    | cons net rest ihrest =>
      cases hdriver : w.driver? net with
      | some s => exact ⟨some s, seen, 1, .driven hdriver⟩
      | none =>
        by_cases hskip : net ∈ seen ∨ latest? net w.assigned = none
        · obtain ⟨answer, after, calls, hrest⟩ := ihrest
          exact ⟨answer, after, 1 + calls, .skipped hdriver hskip hrest⟩
        · obtain ⟨hnew, hassigned⟩ := not_or.1 hskip
          obtain ⟨expr, hexpr⟩ := Option.ne_none_iff_exists'.1 hassigned
          have hless : (w.unseen (net :: seen)).length < k := by
            rw [← hunseen]
            exact w.unseen_cons_lt (by simpa using hnew) hexpr
          obtain ⟨answer, between, calls, hinner⟩ := ih _ hless (net :: seen) (Rtl.identifiers expr) rfl
          cases answer with
          | some s => exact ⟨some s, between, 1 + calls, .found hdriver hnew hexpr hinner⟩
          | none =>
            have hbetween := (sublist_unseen (w := w) hinner.subset).length_le.trans_lt hless
            obtain ⟨answer, after, more, hrest⟩ := ih _ hbetween between rest rfl
            exact ⟨answer, after, 1 + calls + more, .passed hdriver hnew hexpr hinner hrest⟩

/-- How many nets the assignments of the nets not gone through read. -/
def toRead (w : Wiring) (seen : List String) : Nat :=
  ((w.unseen seen).map fun a => (Rtl.identifiers a.2).length).sum

/-- What an assignment reads is paid for when its net is gone through. -/
theorem length_add_toRead_le (hnew : net ∉ seen) (hexpr : latest? net w.assigned = some expr) :
    (Rtl.identifiers expr).length + w.toRead (net :: seen) ≤ w.toRead seen := by
  have hmem : (net, expr) ∈ w.unseen seen := by
    simpa [unseen, hnew] using mem_of_latest? hexpr
  have hgone : (net, expr) ∉ w.unseen (net :: seen) := by simp [unseen]
  obtain ⟨entries, hperm, hsublist⟩ := List.cons_subperm_of_not_mem_of_mem hgone hmem
    (sublist_unseen (List.subset_cons_self net seen)).subperm
  have hsum := (hsublist.map fun a => (Rtl.identifiers a.2).length).sum_le_sum (by simp)
  rwa [(hperm.map _).sum_eq, List.map_cons, List.sum_cons] at hsum

theorem Searched.calls_le (h : w.Searched seen nets answer after calls) :
    calls + w.toRead after ≤ nets.length + w.toRead seen := by
  induction h with
  | nil => simp
  | driven => simp
  | skipped _ _ _ ih =>
    rw [List.length_cons]
    omega
  | found _ hnew hexpr _ ih =>
    have hpaid := length_add_toRead_le hnew hexpr
    rw [List.length_cons]
    omega
  | passed _ hnew hexpr _ _ ihinner ihrest =>
    have hpaid := length_add_toRead_le hnew hexpr
    rw [List.length_cons]
    omega

/-! ### What is found -/

theorem Searched.sound (h : w.Searched seen nets (some s) after calls) :
    ∃ net ∈ nets, ∃ other, Relation.ReflTransGen w.Reads net other ∧ w.driver? other = some s := by
  generalize hanswer : some s = answer at h
  induction h with
  | nil => cases hanswer
  | driven hdriver =>
    cases hanswer
    exact ⟨_, List.mem_cons_self, _, .refl, hdriver⟩
  | skipped _ _ _ ih =>
    obtain ⟨net, hnet, hfound⟩ := ih hanswer
    exact ⟨net, List.mem_cons_of_mem _ hnet, hfound⟩
  | found _ _ hexpr _ ih =>
    obtain ⟨inner, hinner, other, hreached, hdriver⟩ := ih hanswer
    exact ⟨_, List.mem_cons_self, other, .head ⟨_, hexpr, hinner⟩ hreached, hdriver⟩
  | passed _ _ _ _ _ _ ihrest =>
    obtain ⟨net, hnet, hfound⟩ := ihrest hanswer
    exact ⟨net, List.mem_cons_of_mem _ hnet, hfound⟩

/-- A net that is done with: it has no driver of its own, and was gone through or is not assigned. -/
def Done (w : Wiring) (after : List String) (net : String) : Prop :=
  w.driver? net = none ∧ (net ∈ after ∨ latest? net w.assigned = none)

theorem Done.mono {later : List String} (h : w.Done after net) (hsubset : after ⊆ later) :
    w.Done later net :=
  ⟨h.1, h.2.imp_left fun hmem => hsubset hmem⟩

/-- A search without an answer is done with its nets, and with all that is read by the nets that it has
gone through. -/
theorem Searched.closed (h : w.Searched seen nets none after calls) :
    (∀ net ∈ nets, w.Done after net) ∧
      ∀ net ∈ after, net ∉ seen → ∀ other, w.Reads net other → w.Done after other := by
  generalize hanswer : none = answer at h
  induction h with
  | nil => exact ⟨nofun, fun net hmem hnew => absurd hmem hnew⟩
  | driven | found => cases hanswer
  | skipped hdriver hskip hrest ih =>
    obtain ⟨hdone, hclosed⟩ := ih hanswer
    refine ⟨List.forall_mem_cons.2 ⟨⟨hdriver, ?_⟩, hdone⟩, hclosed⟩
    exact hskip.imp_left fun hmem => hrest.subset hmem
  | @passed seen net rest expr between _ after _ _ hdriver hnew hexpr hinner hrest ihinner ihrest =>
    -- The nets that the assignment reads were done with before the nets behind were looked at.
    obtain ⟨hread, hbetween⟩ := ihinner rfl
    obtain ⟨hdone, hclosed⟩ := ihrest hanswer
    have hmem : net ∈ after := hrest.subset (hinner.subset List.mem_cons_self)
    refine ⟨List.forall_mem_cons.2 ⟨⟨hdriver, .inl hmem⟩, hdone⟩, ?_⟩
    intro net' hafter hold other hreads
    by_cases hmid : net' ∈ between
    · by_cases heq : net' = net
      · subst heq
        obtain ⟨expr', hexpr', hother⟩ := hreads
        cases hexpr.symm.trans hexpr'
        exact (hread other hother).mono hrest.subset
      · have hfresh : net' ∉ net :: seen := by simp [heq, hold]
        exact (hbetween net' hmid hfresh other hreads).mono hrest.subset
    · exact hclosed net' hafter hmid other hreads

/-- What can be reached from a net without an answer is done with, and so has no driver. -/
theorem Searched.complete (h : w.Searched [] [net] none after calls) {other : String}
    (hreached : Relation.ReflTransGen w.Reads net other) : w.driver? other = none := by
  obtain ⟨hdone, hclosed⟩ := h.closed
  have hall : w.Done after other := by
    induction hreached with
    | refl => exact hdone net List.mem_cons_self
    | @tail middle other _ hreads ih =>
      rcases ih.2 with hmem | hnone
      · exact hclosed middle hmem List.not_mem_nil other hreads
      · obtain ⟨expr, hexpr, -⟩ := hreads
        rw [hnone] at hexpr
        cases hexpr
  exact hall.1

theorem exists_source?_iff : (∃ s, w.source? net = some s) ↔
    ∃ other, Relation.ReflTransGen w.Reads net other ∧ ∃ s, w.driver? other = some s := by
  obtain ⟨answer, after, calls, h⟩ := exists_searched w [] [net]
  rw [source?, h.search_eq]
  cases answer with
  | none =>
    simp only [reduceCtorEq, exists_false, false_iff]
    rintro ⟨other, hreached, s, hdriver⟩
    rw [h.complete hreached] at hdriver
    cases hdriver
  | some s =>
    obtain ⟨_, hnet, other, hreached, hdriver⟩ := h.sound
    rw [List.mem_singleton.1 hnet] at hreached
    exact iff_of_true ⟨s, rfl⟩ ⟨other, hreached, s, hdriver⟩

theorem exists_reached_of_source? (h : w.source? net = some s) :
    ∃ other, Relation.ReflTransGen w.Reads net other ∧ w.driver? other = some s := by
  obtain ⟨answer, after, calls, hsearch⟩ := exists_searched w [] [net]
  rw [source?, hsearch.search_eq] at h
  subst h
  obtain ⟨_, hnet, other, hreached, hdriver⟩ := hsearch.sound
  rw [List.mem_singleton.1 hnet] at hreached
  exact ⟨other, hreached, hdriver⟩

end search

end Wiring

/-! ### The nets of a top level -/

namespace Context

variable {x : Context} {i : Rtl.Instance} {net other s : String}

/-- An output of the instance is connected to the net, which is the whole expression there. -/
def Outputs (x : Context) (i : Rtl.Instance) (net : String) : Prop :=
  ∃ c ∈ i.connections, c.expr = net ∧
    ∃ m p, x.module? i.moduleName = some m ∧ m.port? c.port = some p ∧ p.direction = .output

def IsInput (x : Context) (net : String) : Prop :=
  ∃ p ∈ x.top.ports, p.direction = .input ∧ p.name = net

/-- The node that drives a net itself: the last instance with an output there, or the inputs, if there is
no such instance and the net is an input port. -/
def DrivenBy (x : Context) (net s : String) : Prop :=
  (∃ i after, i :: after <:+ x.top.instances ∧ x.Outputs i net ∧ (∀ j ∈ after, ¬ x.Outputs j net) ∧
    s = i.name) ∨
  (∀ i ∈ x.top.instances, ¬ x.Outputs i net) ∧ x.IsInput net ∧ s = inputsId

/-- The last assignment of a net reads another net. -/
def Reads (x : Context) (net other : String) : Prop :=
  ∃ a after, a :: after <:+ x.top.assigns ∧ a.lhs = net ∧ (∀ b ∈ after, b.lhs ≠ net) ∧
    other ∈ Rtl.identifiers a.rhs

theorem reads_wiring_iff : x.wiring.Reads net other ↔ x.Reads net other := by
  simp only [Wiring.Reads, wiring, latest?_map_eq_some_iff, Reads, Prod.mk.injEq]
  constructor
  · rintro ⟨_, ⟨a, after, hsuffix, ⟨hlhs, rfl⟩, hafter⟩, hread⟩
    exact ⟨a, after, hsuffix, hlhs, hafter, hread⟩
  · rintro ⟨a, after, hsuffix, hlhs, hafter, hread⟩
    exact ⟨_, ⟨a, after, hsuffix, ⟨hlhs, rfl⟩, hafter⟩, hread⟩

theorem latest?_outputs_eq_some_iff : latest? net
    ((i.connections.filter fun c => x.isOutput i c).map fun c => (c.expr, i.name)) = some s ↔
      x.Outputs i net ∧ s = i.name := by
  simp only [latest?_map_const, List.mem_filter, isOutput_iff, Outputs]
  grind

theorem latest?_outputs_eq_none_iff : latest? net
    ((i.connections.filter fun c => x.isOutput i c).map fun c => (c.expr, i.name)) = none ↔
      ¬ x.Outputs i net := by
  simp [Option.eq_none_iff_forall_ne_some, latest?_outputs_eq_some_iff]

theorem latest?_inputs_eq_some_iff : latest? net
    ((x.top.ports.filter fun p => p.direction == .input).map fun p => (p.name, inputsId)) = some s ↔
      x.IsInput net ∧ s = inputsId := by
  simp [latest?_map_const, IsInput, and_assoc]

theorem latest?_drivers_eq_some_iff : latest? net x.wiring.drivers = some s ↔ x.DrivenBy net s := by
  simp only [wiring, latest?_append, Option.or_eq_some_iff, latest?_flatMap_eq_some_iff,
    latest?_flatMap_eq_none_iff, latest?_outputs_eq_some_iff, latest?_outputs_eq_none_iff,
    latest?_inputs_eq_some_iff, DrivenBy]
  grind

section named

variable (hnames : ∀ i ∈ x.top.instances, i.name ≠ "")

include hnames

theorem driver?_eq_some_iff : x.wiring.driver? net = some s ↔ x.DrivenBy net s := by
  rw [Wiring.driver?, Option.filter_eq_some_iff, latest?_drivers_eq_some_iff]
  refine and_iff_left_of_imp fun h => decide_eq_true ?_
  rcases h with ⟨i, after, hsuffix, -, -, rfl⟩ | ⟨-, -, rfl⟩
  · exact hnames i (hsuffix.subset List.mem_cons_self)
  · decide

theorem exists_driver?_iff : (∃ s, x.wiring.driver? net = some s) ↔
    x.IsInput net ∨ ∃ i ∈ x.top.instances, x.Outputs i net := by
  simp only [driver?_eq_some_iff hnames]
  constructor
  · rintro ⟨s, ⟨i, after, hsuffix, houtputs, -⟩ | ⟨-, hinput, -⟩⟩
    · exact .inr ⟨i, hsuffix.subset List.mem_cons_self, houtputs⟩
    · exact .inl hinput
  · intro h
    simp only [← latest?_drivers_eq_some_iff, ← Option.ne_none_iff_exists', ne_eq]
    simp only [wiring, latest?_append, Option.or_eq_none_iff, latest?_flatMap_eq_none_iff,
      latest?_outputs_eq_none_iff]
    rintro ⟨hoff, hnone⟩
    rcases h with hinput | ⟨i, hi, houtputs⟩
    · rw [latest?_inputs_eq_some_iff.2 ⟨hinput, rfl⟩] at hnone
      cases hnone
    · exact hoff i hi houtputs

end named

end Context

open Context in
/-- **The search for a driver ends and misses none.** For every design with a top level whose instances
have names, whatever its assignments are, and every net: the recursive search has an end, after looking
at no more nets than the assignments read and the one it starts with, and all its runs give the answer in
use. It finds a driver just when one can be reached, going from a net to those that its last assignment
reads; and what it finds is the driver of a net that can be reached. -/
theorem driver_found_iff_reachable {d : Rtl.Design} {top : Module} (htop : d.module? .top = some top)
    (hnames : ∀ i ∈ top.instances, i.name ≠ "") (net : String) :
    let x : Context := ⟨top, d.modules⟩
    ofDesign d = x.graph ∧
    (∃ after calls, x.wiring.Searched [] [net] (x.wiring.source? net) after calls) ∧
    (∀ answer after calls, x.wiring.Searched [] [net] answer after calls →
      answer = x.wiring.source? net ∧
        calls ≤ 1 + (top.assigns.map fun a => (Rtl.identifiers a.rhs).length).sum) ∧
    ((∃ s, x.wiring.source? net = some s) ↔ ∃ other, Relation.ReflTransGen x.Reads net other ∧
      (x.IsInput other ∨ ∃ i ∈ top.instances, x.Outputs i other)) ∧
    ∀ s, x.wiring.source? net = some s →
      ∃ other, Relation.ReflTransGen x.Reads net other ∧ x.DrivenBy other s := by
  intro x
  have hnames' : ∀ i ∈ x.top.instances, i.name ≠ "" := hnames
  have hreads : x.wiring.Reads = x.Reads := by
    funext net other
    exact propext reads_wiring_iff
  refine ⟨?_, ?_, ?_, ?_, ?_⟩
  · rw [ofDesign, htop]
  · obtain ⟨answer, after, calls, h⟩ := x.wiring.exists_searched [] [net]
    rw [Wiring.source?, h.search_eq]
    exact ⟨after, calls, h⟩
  · intro answer after calls h
    refine ⟨h.search_eq.symm, ?_⟩
    have hcalls := h.calls_le
    have hread : x.wiring.toRead [] = (top.assigns.map fun a => (Rtl.identifiers a.rhs).length).sum := by
      simp [Wiring.toRead, Wiring.unseen, Context.wiring, Function.comp_def, x]
    rw [hread, List.length_singleton] at hcalls
    omega
  · rw [Wiring.exists_source?_iff, hreads]
    simp only [exists_driver?_iff hnames', x]
  · intro s hs
    obtain ⟨other, hreached, hdriver⟩ := Wiring.exists_reached_of_source? hs
    rw [hreads] at hreached
    exact ⟨other, hreached, (driver?_eq_some_iff hnames').1 hdriver⟩

/-- A top level where `out` reads `back` and `back` reads `out` again before it reads the input. -/
def loopedTop : Module where
  name := "looped"
  role := .top
  params := []
  ports := [⟨"in", .input, 1, none⟩, ⟨"out", .output, 1, none⟩]
  nets := [⟨"back", 1, none⟩]
  assigns := [⟨"out", "in"⟩, ⟨"out", "out ^ back"⟩, ⟨"back", "out & in"⟩]

theorem driver_found_iff_reachable_looped : ∃ d : Rtl.Design, d.module? .top = some loopedTop ∧
    (∀ i ∈ loopedTop.instances, i.name ≠ "") ∧
    (Context.mk loopedTop d.modules).Reads "out" "out" ∧
    (Context.mk loopedTop d.modules).wiring.source? "out" = some inputsId := by
  let d : Rtl.Design := { (⟨8, 8, 2, 0.75, 7, false, false, false, false⟩ : Config).design with
    modules := [loopedTop] }
  let x : Context := ⟨loopedTop, d.modules⟩
  have hnames : ∀ i ∈ loopedTop.instances, i.name ≠ "" := nofun
  have hout : ∀ other ∈ ["out", "back"], x.Reads "out" other := by
    intro other hother
    refine ⟨⟨"out", "out ^ back"⟩, [⟨"back", "out & in"⟩], by decide, rfl, by decide, ?_⟩
    rwa [show Rtl.identifiers "out ^ back" = ["out", "back"] by decide +kernel]
  have hback : x.Reads "back" "in" :=
    ⟨⟨"back", "out & in"⟩, [], by decide, rfl, nofun, by decide +kernel⟩
  have hin : x.IsInput "in" := ⟨⟨"in", .input, 1, none⟩, List.mem_cons_self, rfl, rfl⟩
  have htop : d.module? .top = some loopedTop := rfl
  obtain ⟨-, -, -, hfound, hdriver⟩ := driver_found_iff_reachable htop hnames "out"
  obtain ⟨s, hs⟩ := hfound.2 ⟨"in", .tail (.single (hout "back" (by simp))) hback, .inl hin⟩
  refine ⟨d, htop, hnames, hout "out" (by simp), ?_⟩
  obtain ⟨other, -, ⟨i, after, hsuffix, -⟩ | ⟨-, -, rfl⟩⟩ := hdriver s hs
  · exact absurd (hsuffix.subset List.mem_cons_self) List.not_mem_nil
  · exact hs

end MemoryCompiler.Diagram

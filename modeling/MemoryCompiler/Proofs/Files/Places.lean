import Mathlib.Tactic
import MemoryCompiler.Files.Tree

/-!
# Places and the paths that name them

A resolved path is a place: names from the root, with no dots and no slash behind it (`resolve_eq`).
Places beside each other share nothing below them (`not_below_beside`), so what is done below one of them
does not show at the others. The parts of any path lead from place to place: a name goes down, two dots
go up, a dot stays (`follow`).
-/

namespace MemoryCompiler.Files

/-- A name that a directory can hold: some text without a slash that is no dot and no two dots. -/
def IsName (s : String) : Prop := s ≠ "" ∧ '/' ∉ s.toList ∧ s ≠ "." ∧ s ≠ ".."

instance (s : String) : Decidable (IsName s) :=
  inferInstanceAs (Decidable (s ≠ "" ∧ '/' ∉ s.toList ∧ s ≠ "." ∧ s ≠ ".."))

/-- A place whose names are names of entries. -/
def Named (p : Place) : Prop := ∀ n ∈ p, IsName n

instance (p : Place) : Decidable (Named p) := inferInstanceAs (Decidable (∀ n ∈ p, IsName n))

/-- The part of a path: some text without a slash. -/
def IsPart (s : String) : Prop := s ≠ "" ∧ '/' ∉ s.toList

section named

variable {p q : Place} {n : String}

theorem named_nil : Named [] := fun _ h => absurd h List.not_mem_nil

theorem Named.append (hp : Named p) (hq : Named q) : Named (p ++ q) := fun n hn =>
  (List.mem_append.1 hn).elim (hp n) (hq n)

theorem Named.concat (hp : Named p) (hn : IsName n) : Named (p ++ [n]) :=
  hp.append fun m hm => by
    rw [List.mem_singleton] at hm
    rwa [hm]

theorem Named.dropLast (hp : Named p) : Named p.dropLast := fun n hn =>
  hp n (List.mem_of_mem_dropLast hn)

end named

/-! ### Places beside each other -/

section beside

variable {d p : Place} {x y : String}

theorem not_below_beside (h : x ≠ y) (z : Place) : ¬ d ++ [x] <+: d ++ y :: z := by
  rw [List.prefix_append_right_inj, List.cons_prefix_cons]
  exact fun hp => h hp.1

theorem prefix_dropLast_of_ne (h : p <+: d) (hne : p ≠ d) : p <+: d.dropLast := by
  obtain ⟨r, rfl⟩ := h
  have hr : r ≠ [] := fun hr => hne (by rw [hr, List.append_nil])
  rw [List.dropLast_append_of_ne_nil hr]
  exact List.prefix_append p _

theorem not_below_dropLast {p q : Place} (hp : p ≠ []) (h : p.dropLast = q.dropLast) :
    ¬ p <+: q.dropLast := fun hunder => by
  have hlength := hunder.length_le
  rw [← h, List.length_dropLast] at hlength
  have := List.length_pos_of_ne_nil hp
  omega

end beside

/-! ### Paths -/

namespace Path

/-- The path of a place. -/
def ofPlace (p : Place) : Path := ⟨true, p, false⟩

theorem ofPlace_parts (p : Place) : (ofPlace p).parts = p := rfl

theorem isEmpty_ofPlace (p : Place) : (ofPlace p).isEmpty = false := rfl

theorem parent_ofPlace (p : Place) : (ofPlace p).parent = ofPlace p.dropLast := by
  rw [parent]
  simp [ofPlace]

theorem name_ofPlace_concat (p : Place) (n : String) : (ofPlace (p ++ [n])).name = n := by
  rw [name, ofPlace_parts, List.getLast?_concat]
  rfl

theorem extend_ofPlace_concat (p : Place) (n suffix : String) :
    (ofPlace (p ++ [n])).extend suffix = ofPlace (p ++ [n ++ suffix]) := by
  rw [extend, name_ofPlace_concat, ofPlace_parts, List.dropLast_concat]
  rfl

theorem foldl_pushPart (done : List String) {parts : List String} (h : Named parts) :
    parts.foldl (pushPart true) done = parts.reverse ++ done := by
  induction parts generalizing done with
  | nil => rfl
  | cons n parts ih =>
    have hn := h n List.mem_cons_self
    have hpush : pushPart true done n = n :: done := by
      unfold pushPart
      rw [if_neg hn.2.2.1, if_neg hn.2.2.2]
    rw [List.foldl_cons, hpush,
      ih _ fun m hm => h m (List.mem_cons_of_mem n hm), List.reverse_cons, List.append_assoc]
    rfl

theorem cleanParts_of_named {parts : List String} (h : Named parts) :
    cleanParts true parts = parts := by
  rw [cleanParts, foldl_pushPart [] h, List.append_nil, List.reverse_reverse]

/-- Cleaned parts are names, as no dots are left in a path from the root. -/
theorem named_cleanParts {parts : List String} (h : ∀ n ∈ parts, IsPart n) :
    Named (cleanParts true parts) := by
  have hfold : ∀ done : List String, Named done → Named (parts.foldl (pushPart true) done) := by
    induction parts with
    | nil => exact fun done hdone => hdone
    | cons n parts ih =>
      intro done hdone
      rw [List.foldl_cons]
      refine ih (fun m hm => h m (List.mem_cons_of_mem n hm)) _ ?_
      have hpart := h n List.mem_cons_self
      unfold pushPart
      by_cases hdot : n = "."
      · rw [if_pos hdot]
        exact hdone
      rw [if_neg hdot]
      by_cases hdots : n = ".."
      · rw [if_pos hdots]
        cases done with
        | nil => exact named_nil
        | cons last rest =>
          have hlast := hdone last List.mem_cons_self
          show Named (if last = ".." then n :: last :: rest else rest)
          rw [if_neg hlast.2.2.2]
          exact fun m hm => hdone m (List.mem_cons_of_mem last hm)
      · rw [if_neg hdots]
        intro m hm
        rcases List.mem_cons.1 hm with rfl | hm
        · exact ⟨hpart.1, hpart.2, hdot, hdots⟩
        · exact hdone m hm
  rw [cleanParts]
  exact fun n hn => hfold [] named_nil n (List.mem_reverse.1 hn)

/-! ### Texts -/

theorem notMem_of_mem_splitOn {a : Char} {cs part : List Char} (h : part ∈ cs.splitOn a) :
    a ∉ part := by
  induction cs generalizing part with
  | nil =>
    rw [List.splitOn_nil, List.mem_singleton] at h
    rw [h]
    exact List.not_mem_nil
  | cons c cs ih =>
    rw [List.splitOn_cons_eq_if_modifyHead] at h
    split_ifs at h with hc
    · rcases List.mem_cons.1 h with rfl | h
      · exact List.not_mem_nil
      · exact ih h
    · cases hs : cs.splitOn a with
      | nil => exact absurd hs (List.splitOn_ne_nil a cs)
      | cons first rest =>
        rw [hs, List.modifyHead_cons, List.mem_cons] at h
        rw [beq_iff_eq] at hc
        rcases h with rfl | h
        · rw [List.mem_cons, not_or]
          exact ⟨fun he => hc he.symm, ih (by rw [hs]; exact List.mem_cons_self)⟩
        · exact ih (by rw [hs]; exact List.mem_cons_of_mem first h)

theorem isPart_of_mem_splitParts {s n : String} (h : n ∈ splitParts s) : IsPart n := by
  rw [splitParts, List.mem_filter, List.mem_map] at h
  obtain ⟨⟨part, hpart, rfl⟩, hne⟩ := h
  refine ⟨by simpa using hne, ?_⟩
  rw [String.toList_ofList]
  exact notMem_of_mem_splitOn hpart

theorem isPart_of_mem_ofText {s n : String} (h : n ∈ (ofText s).parts) : IsPart n :=
  isPart_of_mem_splitParts h

theorem ofText_of_isName {n : String} (h : IsName n) : ofText n = ⟨false, [n], false⟩ := by
  have hparts : splitParts n = [n] := by
    rw [splitParts, List.splitOn_eq_singleton h.2.1, List.map_singleton, String.ofList_toList,
      List.filter_singleton]
    simp [h.1]
  have hhead : n.toList.head? ≠ some '/' := fun he => h.2.1 (List.mem_of_head? he)
  have hlast : n.toList.getLast? ≠ some '/' := fun he => h.2.1 (List.mem_of_getLast? he)
  rw [ofText, hparts, decide_eq_false hhead, decide_eq_false hlast]
  rfl

theorem join_ofPlace {p : Place} {n : String} (hp : Named p) (hn : IsName n) :
    (ofPlace p).join n = ofPlace (p ++ [n]) := by
  have hclean := cleanParts_of_named (hp.concat hn)
  rw [join, ofText_of_isName hn]
  show clean ⟨true, p ++ [n], false⟩ = _
  rw [clean, hclean]
  simp [ofPlace]

theorem ofText_of_isName_pair {m n : String} (hm : IsName m) (hn : IsName n) :
    ofText (m ++ "/" ++ n) = ⟨false, [m, n], false⟩ := by
  have hm0 : m.toList ≠ [] := mt String.toList_eq_nil_iff.1 hm.1
  have hn0 : n.toList ≠ [] := mt String.toList_eq_nil_iff.1 hn.1
  have hchars : (m ++ "/" ++ n).toList = m.toList ++ '/' :: n.toList := by
    rw [String.toList_append, String.toList_append, List.append_assoc]
    rfl
  have hsplit : (m.toList ++ '/' :: n.toList).splitOn '/' = [m.toList, n.toList] := by
    rw [List.splitOn, List.splitOnP_append_cons_of_forall_mem _ '/' (by decide), ← List.splitOn,
      List.splitOn_eq_singleton hn.2.1]
    exact fun c hc => beq_eq_false_iff_ne.2 fun he => hm.2.1 (he ▸ hc)
  have hparts : splitParts (m ++ "/" ++ n) = [m, n] := by
    rw [splitParts, hchars, hsplit]
    simp [hm.1, hn.1]
  have hhead : (m ++ "/" ++ n).toList.head? ≠ some '/' := by
    rw [hchars, List.head?_append_of_ne_nil _ hm0]
    exact fun he => hm.2.1 (List.mem_of_head? he)
  have hlast : (m ++ "/" ++ n).toList.getLast? ≠ some '/' := by
    rw [hchars, List.getLast?_append_cons, List.getLast?_cons_of_ne_nil hn0]
    exact fun he => hn.2.1 (List.mem_of_getLast? he)
  rw [ofText, hparts, decide_eq_false hhead, decide_eq_false hlast]
  rfl

theorem join_ofPlace_pair {p : Place} {m n : String} (hp : Named p) (hm : IsName m) (hn : IsName n) :
    (ofPlace p).join (m ++ "/" ++ n) = ofPlace (p ++ [m, n]) := by
  have hnamed : Named (p ++ [m, n]) := hp.append (by simp [Named, hm, hn])
  have hclean := cleanParts_of_named hnamed
  rw [join, ofText_of_isName_pair hm hn]
  show clean ⟨true, p ++ [m, n], false⟩ = _
  rw [clean, hclean]
  simp [ofPlace]

theorem resolve_eq (directory p : Path) : directory.resolve p = ofPlace (directory.resolve p).parts :=
  rfl

theorem named_resolve {directory p : Path} (hdir : ∀ n ∈ directory.parts, IsPart n)
    (hp : ∀ n ∈ p.parts, IsPart n) : Named (directory.resolve p).parts := by
  refine named_cleanParts ?_
  split_ifs
  · exact hp
  · intro n hn
    exact (List.mem_append.1 hn).elim (hdir n) (hp n)

/-! ### Following the parts of a path -/

/-- Where one part of a path leads. -/
def step (here : Place) (part : String) : Place :=
  if part = "." then here else if part = ".." then here.dropLast else here ++ [part]

/-- Where the parts of a path lead. -/
def follow (here : Place) (parts : List String) : Place := parts.foldl step here

/-- The places that a path comes by, one for each of its first parts. -/
def Passes (here : Place) (parts : List String) (x : Place) : Prop :=
  ∃ way, way <+: parts ∧ x = follow here way

section follow

variable {here x : Place} {parts : List String} {part : String}

@[simp] theorem step_dot (here : Place) : step here "." = here := rfl

@[simp] theorem step_dots (here : Place) : step here ".." = here.dropLast := rfl

theorem step_name (hdot : part ≠ ".") (hdots : part ≠ "..") : step here part = here ++ [part] := by
  rw [step, if_neg hdot, if_neg hdots]

@[simp] theorem follow_nil (here : Place) : follow here [] = here := rfl

theorem follow_cons (here : Place) (part : String) (parts : List String) :
    follow here (part :: parts) = follow (step here part) parts := rfl

theorem follow_append (here : Place) (way parts : List String) :
    follow here (way ++ parts) = follow (follow here way) parts := List.foldl_append

theorem follow_concat (here : Place) (parts : List String) (part : String) :
    follow here (parts ++ [part]) = step (follow here parts) part := by
  rw [follow_append, follow_cons, follow_nil]

theorem follow_named (here : Place) (h : Named parts) : follow here parts = here ++ parts := by
  induction parts generalizing here with
  | nil => rw [follow_nil, List.append_nil]
  | cons n parts ih =>
    have hn := h n List.mem_cons_self
    rw [follow_cons, step_name hn.2.2.1 hn.2.2.2, ih _ fun m hm => h m (List.mem_cons_of_mem n hm),
      List.append_assoc]
    rfl

theorem Passes.cons {there : Place} (hstep : step here part = there) (h : Passes there parts x) :
    Passes here (part :: parts) x := by
  obtain ⟨way, hway, rfl⟩ := h
  exact ⟨part :: way, List.cons_prefix_cons.2 ⟨rfl, hway⟩, by rw [follow_cons, hstep]⟩

theorem passes_self (here : Place) (parts : List String) : Passes here parts here :=
  ⟨[], List.nil_prefix, rfl⟩

end follow

end Path

end MemoryCompiler.Files

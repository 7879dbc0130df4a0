import Mathlib
import MemoryCompiler.Diagram.Markup
import MemoryCompiler.Proofs.Xml.Reader

/-!
# Escaped texts

An escaped text holds none of the characters that end a text or a value, and an `&` in it always begins an
entity. One pass from left to right that puts the character in the place of each entity gives the text back
(`unescape_escape`), so no two texts are escaped alike. That pass undoes five replacements of one character
each, one over the result of the other, in the order of `entities` (`escape_eq_passes`).
-/

namespace MemoryCompiler.Xml

open Diagram (escape escapeChar)

/-! ### Entities in a text -/

/-- An entity as it is written. -/
def entityChars (name : String) : List Char := '&' :: (name.toList ++ [';'])

/-- The entity in front of a text: its character and what follows it. -/
def leadingEntity? (cs : List Char) : Option (Char × List Char) :=
  entities.findSome? fun e => (cs.dropPrefix? (entityChars e.1)).map fun rest => (e.2, rest)

theorem length_of_leadingEntity? {cs rest : List Char} {c : Char} (h : leadingEntity? cs = some (c, rest)) :
    rest.length < cs.length := by
  obtain ⟨e, -, he⟩ := List.exists_of_findSome?_eq_some h
  obtain ⟨after, hdrop, hafter⟩ := Option.map_eq_some_iff.1 he
  obtain ⟨front, hcs, hfront⟩ := List.dropPrefix?_eq_some_iff.1 hdrop
  have hlength := congrArg List.length (eq_of_beq hfront)
  cases hafter
  rw [hcs, List.length_append, hlength, entityChars, List.length_cons]
  omega

/-- Replaces each entity by its character, in one pass. -/
def unescapeChars : List Char → List Char
  | [] => []
  | c :: cs =>
    match _hlead : leadingEntity? (c :: cs) with
    | some (d, rest) => d :: unescapeChars rest
    | none => c :: unescapeChars cs
termination_by cs => cs.length
decreasing_by
  · exact length_of_leadingEntity? _hlead
  · exact Nat.lt_succ_self _

def unescape (s : String) : String := String.ofList (unescapeChars s.toList)

section entities

variable {c : Char} {cs rest : List Char} {e : String × Char}

theorem leadingEntity?_entityChars (he : e ∈ entities) (rest : List Char) :
    leadingEntity? (entityChars e.1 ++ rest) = some (e.2, rest) := by
  simp only [entities, List.mem_cons, List.not_mem_nil, or_false] at he
  rcases he with rfl | rfl | rfl | rfl | rfl <;> simp [leadingEntity?, entities, entityChars, List.dropPrefix?]

theorem leadingEntity?_of_ne (h : c ≠ '&') : leadingEntity? (c :: cs) = none := by
  have hne : (c == '&') = false := beq_false_of_ne h
  rw [leadingEntity?, List.findSome?_eq_none_iff]
  intro e _
  simp [entityChars, List.dropPrefix?, hne]

theorem eq_of_prefix_entityChars {f : String × Char} (he : e ∈ entities) (hf : f ∈ entities)
    (h : entityChars e.1 <+: cs) (h' : entityChars f.1 <+: cs) : e = f := by
  have hfront : ∀ e ∈ entities, ∀ f ∈ entities, entityChars e.1 <+: entityChars f.1 → e = f := by decide
  rcases List.prefix_or_prefix_of_prefix h h' with hle | hle
  · exact hfront e he f hf hle
  · exact (hfront f hf e he hle).symm

theorem amp_notMem_tail (he : e ∈ entities) : '&' ∉ e.1.toList ++ [';'] := by
  have hall : ∀ e ∈ entities, '&' ∉ e.1.toList ++ [';'] := by decide
  exact hall e he

end entities

/-! ### Escaped characters -/

theorem escapeChar_eq (c : Char) : (∃ e ∈ entities, e.2 = c ∧ escapeChar c = entityChars e.1) ∨
    (∀ e ∈ entities, e.2 ≠ c) ∧ escapeChar c = [c] := by
  rw [escapeChar]
  split_ifs with hamp hlt hgt hquot hapos
  · exact .inl ⟨("amp", '&'), by decide, hamp.symm, rfl⟩
  · exact .inl ⟨("lt", '<'), by decide, hlt.symm, rfl⟩
  · exact .inl ⟨("gt", '>'), by decide, hgt.symm, rfl⟩
  · exact .inl ⟨("quot", '"'), by decide, hquot.symm, rfl⟩
  · exact .inl ⟨("apos", '\''), by decide, hapos.symm, rfl⟩
  · refine .inr ⟨?_, rfl⟩
    simp only [entities, List.forall_mem_cons]
    exact ⟨Ne.symm hamp, Ne.symm hlt, Ne.symm hgt, Ne.symm hquot, Ne.symm hapos, nofun⟩

theorem unescapeChars_escapeChar (c : Char) (rest : List Char) :
    unescapeChars (escapeChar c ++ rest) = c :: unescapeChars rest := by
  rcases escapeChar_eq c with ⟨e, he, rfl, hescape⟩ | ⟨hplain, hescape⟩
  · have hlead := leadingEntity?_entityChars he rest
    rw [hescape]
    rw [entityChars, List.cons_append] at hlead ⊢
    rw [unescapeChars]
    split
    · rename_i heq
      rw [hlead] at heq
      cases heq
      rfl
    · rename_i heq
      rw [hlead] at heq
      cases heq
  · have hne : c ≠ '&' := (hplain ("amp", '&') (by decide)).symm
    have hlead : leadingEntity? (c :: rest) = none := leadingEntity?_of_ne hne
    rw [hescape, List.singleton_append, unescapeChars]
    split
    · rename_i heq
      rw [hlead] at heq
      cases heq
    · rfl

theorem unescapeChars_flatMap (cs : List Char) : unescapeChars (cs.flatMap escapeChar) = cs := by
  induction cs with
  | nil => rw [List.flatMap_nil, unescapeChars]
  | cons c cs ih => rw [List.flatMap_cons, unescapeChars_escapeChar, ih]

theorem unescape_escape (s : String) : unescape (escape s) = s := by
  rw [unescape, escape, String.toList_ofList, unescapeChars_flatMap, String.ofList_toList]

/-- Of the special characters only the first, `&`, stands in an escaped text. -/
theorem notMem_escapeChar {e : String × Char} (he : e ∈ entities.tail) (c : Char) :
    e.2 ∉ escapeChar c := by
  have hall : ∀ e ∈ entities.tail, ∀ f ∈ entities, e.2 ∉ entityChars f.1 := by decide
  rcases escapeChar_eq c with ⟨f, hf, -, hescape⟩ | ⟨hplain, hescape⟩
  · rw [hescape]
    exact hall e he f hf
  · rw [hescape, List.mem_singleton]
    exact hplain e (List.mem_of_mem_tail he)

theorem exists_entity_of_amp {cs before after : List Char}
    (h : cs.flatMap escapeChar = before ++ '&' :: after) :
    ∃ e ∈ entities, entityChars e.1 <+: '&' :: after := by
  induction cs generalizing before with
  | nil => exact absurd h.symm (by simp)
  | cons c cs ih =>
    rw [List.flatMap_cons, List.append_eq_append_iff] at h
    rcases h with ⟨front, -, hrest⟩ | ⟨front, hfront, hrest⟩
    · exact ih hrest
    · cases front with
      | nil => exact ih (hrest.symm.trans (List.nil_append _).symm)
      | cons d front =>
        -- The `&` stands among the characters that are written for `c`.
        obtain ⟨rfl, hafter⟩ := List.cons.inj hrest
        rcases escapeChar_eq c with ⟨e, he, -, hescape⟩ | ⟨hplain, hescape⟩
        · rw [hescape, entityChars, List.cons_eq_append_iff] at hfront
          rcases hfront with ⟨-, hentity⟩ | ⟨rest, -, hentity⟩
          · refine ⟨e, he, cs.flatMap escapeChar, ?_⟩
            rw [entityChars, ← hentity, hafter]
            rfl
          · refine absurd ?_ (amp_notMem_tail he)
            rw [hentity]
            exact List.mem_append_right _ List.mem_cons_self
        · have hmem : '&' ∈ [c] := by
            rw [← hescape, hfront]
            exact List.mem_append_right _ List.mem_cons_self
          exact absurd (List.mem_singleton.1 hmem) (hplain ("amp", '&') (by decide))

/-! ### Five replacements -/

/-- Puts some characters in the place of one, wherever it stands. -/
def replaceAll (c : Char) (other : List Char) (cs : List Char) : List Char :=
  cs.flatMap fun d => if d = c then other else [d]

/-- Replaces the special characters one after the other, each in the whole text. -/
def replaceSpecial (cs : List Char) : List Char :=
  entities.foldl (fun cs e => replaceAll e.2 (entityChars e.1) cs) cs

theorem replaceSpecial_append (cs ds : List Char) :
    replaceSpecial (cs ++ ds) = replaceSpecial cs ++ replaceSpecial ds := by
  simp only [replaceSpecial, entities, List.foldl_cons, List.foldl_nil, replaceAll, List.flatMap_append]

/-- Since `&` is replaced first, no entity is escaped again. -/
theorem replaceSpecial_singleton (c : Char) : replaceSpecial [c] = escapeChar c := by
  rcases escapeChar_eq c with ⟨e, he, rfl, hescape⟩ | ⟨hplain, hescape⟩
  · have hall : ∀ e ∈ entities, replaceSpecial [e.2] = entityChars e.1 := by decide
    rw [hescape, hall e he]
  · have hne : ∀ e ∈ entities, c ≠ e.2 := fun e he => (hplain e he).symm
    simp only [entities, List.forall_mem_cons] at hne
    obtain ⟨hamp, hlt, hgt, hquot, hapos, -⟩ := hne
    rw [hescape]
    simp [replaceSpecial, entities, replaceAll, hamp, hlt, hgt, hquot, hapos]

theorem escape_eq_passes (s : String) : escape s = String.ofList (replaceSpecial s.toList) := by
  rw [escape]
  congr 1
  induction s.toList with
  | nil => rfl
  | cons c cs ih =>
    rw [List.flatMap_cons, ih, ← replaceSpecial_singleton, ← replaceSpecial_append, List.singleton_append]

/-- Escaping is safe and can be undone: the five replacements, each over the result of the one before, leave
no angle bracket and no quotation mark of either kind, each `&` in what they leave begins exactly one of the
five entities, one pass over its entities gives the text back, and different texts are escaped differently. -/
theorem escape_safe_invertible :
    (∀ s : String, escape s = String.ofList (replaceSpecial s.toList) ∧
      (∀ c ∈ ['<', '>', '"', '\''], c ∉ (escape s).toList) ∧
      (∀ before after, (escape s).toList = before ++ '&' :: after →
        ∃! e, e ∈ entities ∧ entityChars e.1 <+: '&' :: after) ∧
      unescape (escape s) = s) ∧
    Function.Injective escape := by
  refine ⟨fun s => ⟨escape_eq_passes s, fun c hc => ?_, fun before after h => ?_, unescape_escape s⟩, ?_⟩
  · have hspecial : entities.tail.map Prod.snd = ['<', '>', '"', '\''] := rfl
    rw [← hspecial] at hc
    obtain ⟨e, he, rfl⟩ := List.mem_map.1 hc
    rw [escape, String.toList_ofList, List.mem_flatMap]
    rintro ⟨d, -, hmem⟩
    exact notMem_escapeChar he d hmem
  · rw [escape, String.toList_ofList] at h
    obtain ⟨e, he, hprefix⟩ := exists_entity_of_amp h
    exact ⟨e, ⟨he, hprefix⟩, fun f hf => eq_of_prefix_entityChars hf.1 he hf.2 hprefix⟩
  · exact Function.LeftInverse.injective unescape_escape

/-- A text that is an entity itself: its `&` is written as an entity, and the rest of it is not one. -/
theorem escape_safe_invertible_entity : (escape "&lt;").toList = [] ++ '&' :: "amp;lt;".toList ∧
    (∃! e, e ∈ entities ∧ entityChars e.1 <+: '&' :: "amp;lt;".toList) ∧ unescape (escape "&lt;") = "&lt;" := by
  obtain ⟨-, -, hentity, hback⟩ := escape_safe_invertible.1 "&lt;"
  exact ⟨by decide, hentity [] _ (by decide), hback⟩

/-- Entities and parts of them in a text survive, and are told from the characters they stand for. -/
example : escape "&lt;" = "&amp;lt;" ∧ escape "&&" = "&amp;&amp;" ∧ escape "<" = "&lt;" := by decide

end MemoryCompiler.Xml

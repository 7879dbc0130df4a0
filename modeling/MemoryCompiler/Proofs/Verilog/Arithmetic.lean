import MemoryCompiler.Proofs.Verilog.Semantics
import MemoryCompiler.Proofs.Verilog.Structural

/-!
# Wires that divide

A body may hold more than wires and assignments of bits: clocked blocks, loops, memories. `divisions`
finds in such a body the wires that are declared with the quotient or the rest of two operands, and
`divider?` reads a whole text in this way, its parameters and ports in front. A wire holds its value
modulo the power of two that its range leaves room for (`Division.value`).
-/

namespace MemoryCompiler.Verilog

/-- What a division is taken for. -/
inductive Division.Part where
  | quotient
  | rest
deriving DecidableEq, Repr

/-- A wire that is declared with a quotient or a rest. -/
structure Division where
  range : Option Range
  name : String
  dividend : String
  part : Division.Part
  divisor : String
deriving DecidableEq, Repr

/-- A module of which the dividing wires have been read. -/
structure Divider where
  name : String
  params : List (String × Nat)
  ports : List Port
  divisions : List Division
deriving DecidableEq, Repr

/-! ### Reading -/

/-- Reads the sign of a division. -/
def part : List Token → Option (Division.Part × List Token)
  | .symbol '/' :: ts => some (.quotient, ts)
  | .symbol '%' :: ts => some (.rest, ts)
  | _ => none

def division? (ts : List Token) : Option Division := do
  let ts ← keyword "wire" ts
  let (range, ts) ← range? ts
  let (name, ts) ← identifier ts
  let ts ← expect '=' ts
  let (dividend, ts) ← identifier ts
  let (part, ts) ← part ts
  let (divisor, ts) ← identifier ts
  let _ ← expect ';' ts
  some ⟨range, name, dividend, part, divisor⟩

def divisions : List Token → List Division
  | [] => []
  | t :: ts => (division? (t :: ts)).toList ++ divisions ts

/-- Reads a text up to its ports, and the dividing wires behind them. A parameter with a negative value
is left out. -/
def divider? (text : String) : Option Divider := do
  let cs ← Structural.keyword "module" text.toList
  let (name, cs) ← Structural.name cs
  let (params, cs) ← Structural.optionalList Structural.param cs
  let (ports, cs) ← Structural.list Structural.port cs
  let cs ← Structural.symbol ';' cs
  some ⟨name, params.filterMap fun p => p.2.toNat?.map (p.1, ·), ports, divisions (Scan.idle.tokens cs)⟩

/-! ### Text without a division -/

section suffix

variable {ts us : List Token}

theorem keyword_suffix {k : String} (h : keyword k ts = some us) : us <:+ ts := by
  unfold keyword at h
  split at h
  · split_ifs at h
    cases h
    exact List.suffix_cons _ _
  · cases h

theorem expect_suffix {c : Char} (h : expect c ts = some us) : us <:+ ts := by
  unfold expect at h
  split at h
  · split_ifs at h
    cases h
    exact List.suffix_cons _ _
  · cases h

theorem identifier_suffix {x : String} (h : identifier ts = some (x, us)) : us <:+ ts := by
  unfold identifier at h
  split at h
  · cases h
    exact List.suffix_cons _ _
  · cases h

theorem constAtom_suffix {a : Const} (h : constAtom ts = some (a, us)) : us <:+ ts := by
  unfold constAtom at h
  split at h
  · cases h
    exact List.suffix_cons _ _
  · cases h
    exact List.suffix_cons _ _
  · cases h

theorem constant_suffix {a : Const} (h : constant ts = some (a, us)) : us <:+ ts := by
  obtain ⟨⟨b, vs⟩, hfirst, hrest⟩ := Option.bind_eq_some_iff.1 h
  have hvs := constAtom_suffix hfirst
  dsimp only at hrest
  split at hrest
  · obtain ⟨⟨d, ws⟩, hsecond, heq⟩ := Option.bind_eq_some_iff.1 hrest
    cases heq
    exact ((constAtom_suffix hsecond).trans (List.suffix_cons _ _)).trans hvs
  · cases hrest
    exact hvs

theorem range?_suffix {r : Option Range} (h : range? ts = some (r, us)) : us <:+ ts := by
  unfold range? at h
  split at h
  · obtain ⟨⟨high, vs⟩, hhigh, h⟩ := Option.bind_eq_some_iff.1 h
    obtain ⟨ws, hcolon, h⟩ := Option.bind_eq_some_iff.1 h
    obtain ⟨⟨low, xs⟩, hlow, h⟩ := Option.bind_eq_some_iff.1 h
    obtain ⟨ys, hclose, h⟩ := Option.bind_eq_some_iff.1 h
    cases h
    exact (expect_suffix hclose).trans ((constant_suffix hlow).trans ((expect_suffix hcolon).trans
      ((constant_suffix hhigh).trans (List.suffix_cons _ _))))
  · cases h
    exact List.suffix_refl _

end suffix

def isDivisionSign (c : Char) : Bool := c == '/' || c == '%'

theorem exists_sign_of_division? {ts : List Token} {d : Division} (h : division? ts = some d) :
    ∃ c, isDivisionSign c = true ∧ .symbol c ∈ ts := by
  obtain ⟨us, hkeyword, h⟩ := Option.bind_eq_some_iff.1 h
  obtain ⟨⟨range, vs⟩, hrange, h⟩ := Option.bind_eq_some_iff.1 h
  obtain ⟨⟨name, ws⟩, hname, h⟩ := Option.bind_eq_some_iff.1 h
  obtain ⟨xs, hequals, h⟩ := Option.bind_eq_some_iff.1 h
  obtain ⟨⟨dividend, ys⟩, hdividend, h⟩ := Option.bind_eq_some_iff.1 h
  obtain ⟨⟨sign, zs⟩, hsign, -⟩ := Option.bind_eq_some_iff.1 h
  have hsuffix := (identifier_suffix hdividend).trans ((expect_suffix hequals).trans
    ((identifier_suffix hname).trans ((range?_suffix hrange).trans (keyword_suffix hkeyword))))
  unfold part at hsign
  split at hsign
  · exact ⟨'/', rfl, hsuffix.subset List.mem_cons_self⟩
  · exact ⟨'%', rfl, hsuffix.subset List.mem_cons_self⟩
  · cases hsign

theorem divisions_eq_nil {ts : List Token} (h : ∀ c, .symbol c ∈ ts → isDivisionSign c = false) :
    divisions ts = [] := by
  induction ts with
  | nil => rfl
  | cons t ts ih =>
    have hnone : division? (t :: ts) = none := by
      by_contra hsome
      obtain ⟨d, hd⟩ := Option.ne_none_iff_exists'.1 hsome
      obtain ⟨c, hc, hmem⟩ := exists_sign_of_division? hd
      rw [h c hmem] at hc
      cases hc
    rw [divisions, hnone, ih fun c hc => h c (List.mem_cons_of_mem t hc)]
    rfl

namespace Scan

theorem eq_of_symbol_start {c d : Char} (h : .symbol c ∈ (start d).1 ++ (start d).2.finish) : c = d := by
  unfold start at h
  split_ifs at h with _ _ _ hslash
  · simp [finish] at h
  · simp [finish] at h
  · simp [finish] at h
  · simp only [finish, List.nil_append, List.mem_singleton, Token.symbol.injEq] at h
    rw [h, hslash]
  · simp [finish] at h
  · simpa [finish] using h

theorem next_cases (s : Scan) (d : Char) : s.next d = s.restart d ∨ (s.next d).1 = [] ∧
    ∀ c, .symbol c ∈ (s.next d).2.finish → c = d ∨ .symbol c ∈ s.finish := by
  cases s with
  | idle => exact .inl rfl
  | word reversed =>
    rw [next]
    split_ifs
    · exact .inr ⟨rfl, by simp [finish]⟩
    · exact .inl rfl
  | number n =>
    rw [next]
    split_ifs with hdigit hquote
    · exact .inr ⟨rfl, by simp [finish]⟩
    · exact .inr ⟨rfl, by simp [finish, hquote]⟩
    · exact .inl rfl
  | quote width =>
    rw [next]
    split_ifs
    · exact .inr ⟨rfl, by simp [finish]⟩
    · exact .inl rfl
  | base width =>
    rw [next]
    split_ifs
    · exact .inr ⟨rfl, by simp [finish]⟩
    · exact .inl rfl
  | sized width value =>
    rw [next]
    split_ifs
    · exact .inr ⟨rfl, by simp [finish]⟩
    · exact .inl rfl
  | slash =>
    rw [next]
    split_ifs
    · exact .inr ⟨rfl, by simp [finish]⟩
    · exact .inl rfl
  | line =>
    rw [next]
    split_ifs
    · exact .inr ⟨rfl, by simp [finish]⟩
    · exact .inr ⟨rfl, by simp [finish]⟩

theorem symbol_next {s : Scan} {c d : Char} (h : .symbol c ∈ (s.next d).1 ++ (s.next d).2.finish) :
    c = d ∨ .symbol c ∈ s.finish := by
  rcases s.next_cases d with hrestart | ⟨hnone, hgoes⟩
  · rw [hrestart, restart, List.append_assoc, List.mem_append] at h
    exact h.symm.imp eq_of_symbol_start id
  · rw [hnone] at h
    exact hgoes c h

theorem mem_of_symbol_mem_tokens {s : Scan} {c : Char} {cs : List Char} (h : .symbol c ∈ s.tokens cs) :
    c ∈ cs ∨ .symbol c ∈ s.finish := by
  induction cs generalizing s with
  | nil => exact .inr h
  | cons d cs ih =>
    rw [tokens, List.mem_append] at h
    have hnext : .symbol c ∈ (s.next d).1 ++ (s.next d).2.finish → c ∈ d :: cs ∨ .symbol c ∈ s.finish :=
      fun hmem => (symbol_next hmem).imp (fun heq => List.mem_cons.2 (.inl heq)) id
    rcases h with h | h
    · exact hnext (List.mem_append_left _ h)
    · rcases ih h with h | h
      · exact .inl (List.mem_cons_of_mem d h)
      · exact hnext (List.mem_append_right _ h)

end Scan

/-- A text without a sign of a division. -/
def dividesNothing (s : String) : Bool := s.toList.all fun c => !isDivisionSign c

theorem dividesNothing_append (s t : String) :
    dividesNothing (s ++ t) = (dividesNothing s && dividesNothing t) := by
  rw [dividesNothing, String.toList_append, List.all_append]
  rfl

/-- Such a text declares no dividing wire. -/
theorem divisions_of_dividesNothing {cs : List Char} (h : ∀ c ∈ cs, isDivisionSign c = false) :
    divisions (Scan.idle.tokens cs) = [] :=
  divisions_eq_nil fun c hc => h c ((Scan.mem_of_symbol_mem_tokens hc).resolve_right List.not_mem_nil)

/-! ### Values -/

namespace Divider

def declarations (d : Divider) : Module := ⟨d.name, d.params, d.ports, []⟩

/-- The value of an operand: that of a parameter, or of a port whose width it fits. -/
def operand (d : Divider) (inputs : String → Nat) (x : String) : Option Nat :=
  match d.params.lookup x with
  | some n => some n
  | none => (d.declarations.width? x).bind fun w => if inputs x < 2 ^ w then some (inputs x) else none

end Divider

/-- What a part of a division is. -/
def Division.Part.apply : Division.Part → Nat → Nat → Nat
  | quotient, a, b => a / b
  | rest, a, b => a % b

/-- The value of a wire. Nothing is divided by zero, and what the range has no room for is lost. -/
def Division.value (d : Divider) (inputs : String → Nat) (x : Division) : Option Nat := do
  let a ← d.operand inputs x.dividend
  let b ← d.operand inputs x.divisor
  let width ← d.declarations.rangeWidth x.range
  if b = 0 then none else some (x.part.apply a b % 2 ^ width)

def Divider.wire (d : Divider) (inputs : String → Nat) (name : String) : Option Nat :=
  (d.divisions.find? fun x => x.name == name).bind (Division.value d inputs)

/-! ### Values that fit -/

section value

variable {d : Divider} {inputs : String → Nat} {x : String}

theorem operand_param {n : Nat} (h : d.params.lookup x = some n) : d.operand inputs x = some n := by
  rw [Divider.operand, h]

theorem operand_port {w : Nat} (hparam : d.params.lookup x = none)
    (hwidth : d.declarations.width? x = some w) :
    d.operand inputs x = if inputs x < 2 ^ w then some (inputs x) else none := by
  rw [Divider.operand, hparam, hwidth]
  rfl

theorem Division.Part.apply_le (p : Division.Part) (a b : Nat) : p.apply a b ≤ a := by
  cases p with
  | quotient => exact Nat.div_le_self a b
  | rest => exact Nat.mod_le a b

theorem Division.value_eq {v : Division} {a b w : Nat} (ha : d.operand inputs v.dividend = some a)
    (hb : d.operand inputs v.divisor = some b) (hw : d.declarations.rangeWidth v.range = some w)
    (hpos : 0 < b) (hfits : a < 2 ^ w) : v.value d inputs = some (v.part.apply a b) := by
  rw [Division.value, ha, hb, hw]
  show (if b = 0 then none else some (v.part.apply a b % 2 ^ w)) = _
  rw [if_neg hpos.ne', Nat.mod_eq_of_lt ((v.part.apply_le a b).trans_lt hfits)]

end value

end MemoryCompiler.Verilog

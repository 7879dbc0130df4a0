import MemoryCompiler.Proofs.Verilog.Syntax

/-!
# What a module computes

Nets hold bits, the lowest first. An expression has a value if the nets in it are declared and its
widths fit. A valuation of the nets solves a module if every net has its declared width and every
driven net or bit has the value of its expression. `Module.drivers` counts what drives a bit.
-/

namespace MemoryCompiler.Verilog

/-- The bits of each net, the lowest first. -/
abbrev Valuation := String → List Bool

/-- The range with which an item declares a net. -/
def Item.declared? : Item → Option (String × Option Range)
  | .wire range name _ => some (name, range)
  | .assign .. => none

/-- A net, or one bit of it, with the expression that drives it. -/
structure Drive where
  name : String
  index : Option Const
  value : Expr
deriving DecidableEq, Repr

def Item.drive? : Item → Option Drive
  | .wire _ name value => value.map fun e => ⟨name, none, e⟩
  | .assign name index value => some ⟨name, index, value⟩

namespace Module

def constant (m : Module) : Const → Option Nat
  | .literal n => some n
  | .parameter x => m.params.lookup x
  | .minus a b => do
    let x ← m.constant a
    let y ← m.constant b
    if y ≤ x then some (x - y) else none

def declared (m : Module) : List (String × Option Range) :=
  m.ports.map (fun p => (p.name, p.range)) ++ m.items.filterMap Item.declared?

/-- The width of a declared range; its lowest index is zero. -/
def rangeWidth (m : Module) : Option Range → Option Nat
  | none => some 1
  | some (high, low) => do
    let h ← m.constant high
    let l ← m.constant low
    if l = 0 then some (h + 1) else none

/-- The width of a net that is declared. -/
def width? (m : Module) (x : String) : Option Nat := (m.declared.lookup x).bind m.rangeWidth

def bits? (m : Module) (σ : Valuation) (x : String) : Option (List Bool) :=
  (m.width? x).map fun _ => σ x

/-- Joins the bits of two operands of one width. -/
def pointwise (f : Bool → Bool → Bool) (x y : List Bool) : Option (List Bool) :=
  if x.length = y.length then some (List.zipWith f x y) else none

/-- The value of an expression. -/
def eval (m : Module) (σ : Valuation) : Expr → Option (List Bool)
  | .net x => m.bits? σ x
  | .bit x index => do
    let bits ← m.bits? σ x
    let i ← m.constant index
    let b ← bits[i]?
    some [b]
  | .range x high low => do
    let bits ← m.bits? σ x
    let h ← m.constant high
    let l ← m.constant low
    if l ≤ h ∧ h < bits.length then some ((bits.drop l).take (h + 1 - l)) else none
  | .slice x low width => do
    let bits ← m.bits? σ x
    let l ← m.constant low
    let w ← m.constant width
    if 0 < w ∧ l + w ≤ bits.length then some ((bits.drop l).take w) else none
  | .literal width value => some ((List.range width).map value.testBit)
  | .not a => (m.eval σ a).map fun bits => bits.map not
  | .reduceXor a => (m.eval σ a).map fun bits => [bits.foldr xor false]
  | .reduceOr a => (m.eval σ a).map fun bits => [bits.any id]
  | .equal a b => do
    let x ← m.eval σ a
    let y ← m.eval σ b
    if x.length = y.length then some [decide (x = y)] else none
  | .and a b => do pointwise and (← m.eval σ a) (← m.eval σ b)
  | .xor a b => do pointwise xor (← m.eval σ a) (← m.eval σ b)
  | .concat a b => do some ((← m.eval σ b) ++ (← m.eval σ a))

/-! ### Drivers and solutions -/

/-- Everything that drives something. -/
def drives (m : Module) : List Drive := m.items.filterMap Item.drive?

/-- Whether a drive sets bit `i` of the net `x`. -/
def covers (m : Module) (x : String) (i : Nat) (d : Drive) : Bool :=
  d.name == x && d.index.all fun c => m.constant c == some i

/-- The number of drives of a bit. -/
def drivers (m : Module) (x : String) (i : Nat) : Nat := m.drives.countP (m.covers x i)

/-- What a drive asks of a valuation. -/
def Holds (m : Module) (σ : Valuation) (d : Drive) : Prop :=
  match d.index with
  | none => m.eval σ d.value = some (σ d.name)
  | some index => ∃ i b, m.constant index = some i ∧ (σ d.name)[i]? = some b ∧
      m.eval σ d.value = some [b]

/-- A valuation that the nets of a module can settle on. -/
structure Solution (m : Module) (σ : Valuation) : Prop where
  width : ∀ x n, m.width? x = some n → (σ x).length = n
  holds : ∀ d ∈ m.drives, m.Holds σ d

end Module

/-! ### Values of expressions -/

section eval

variable {m : Module} {σ : Valuation} {x : String} {n : Nat}

attribute [local simp] Module.eval

theorem eval_net (h : m.width? x = some n) : m.eval σ (.net x) = some (σ x) := by
  rw [Module.eval, Module.bits?, h]
  rfl

theorem eval_bit (h : m.width? x = some n) (i : Nat) :
    m.eval σ (.bit x (.literal i)) = (σ x)[i]?.map fun b => [b] := by
  rw [Module.eval, Module.bits?, h]
  show ((σ x)[i]?.bind fun b => some [b]) = _
  cases (σ x)[i]? <;> rfl

section operators

variable {a b : Expr} {xs ys : List Bool} {p q : Bool}

theorem eval_not (ha : m.eval σ a = some xs) : m.eval σ (.not a) = some (xs.map not) := by
  simp [ha]

theorem eval_reduceXor (ha : m.eval σ a = some xs) :
    m.eval σ (.reduceXor a) = some [xs.foldr xor false] := by
  simp [ha]

theorem eval_reduceOr (ha : m.eval σ a = some xs) :
    m.eval σ (.reduceOr a) = some [xs.any id] := by
  simp [ha]

theorem eval_concat (ha : m.eval σ a = some xs) (hb : m.eval σ b = some ys) :
    m.eval σ (.concat a b) = some (ys ++ xs) := by
  simp [ha, hb]

theorem eval_equal (ha : m.eval σ a = some xs) (hb : m.eval σ b = some ys)
    (hlen : xs.length = ys.length) : m.eval σ (.equal a b) = some [decide (xs = ys)] := by
  rw [Module.eval, ha, hb]
  show (if xs.length = ys.length then _ else none) = _
  rw [if_pos hlen]

theorem eval_and (ha : m.eval σ a = some [p]) (hb : m.eval σ b = some [q]) :
    m.eval σ (.and a b) = some [p && q] := by
  rw [Module.eval, ha, hb]
  rfl

theorem eval_xor (ha : m.eval σ a = some [p]) (hb : m.eval σ b = some [q]) :
    m.eval σ (.xor a b) = some [p ^^ q] := by
  rw [Module.eval, ha, hb]
  rfl

end operators

/-- The sum without carry of some operands. -/
def sumOf : List Expr → Expr
  | [] => .literal 1 0
  | e :: es => es.foldl .xor e

theorem eval_foldl_xor {es : List Expr} {bs : List Bool} {e : Expr} {b : Bool}
    (he : m.eval σ e = some [b]) (h : es.map (m.eval σ) = bs.map fun b => some [b]) :
    m.eval σ (es.foldl .xor e) = some [b ^^ bs.foldr xor false] := by
  induction es generalizing e b bs with
  | nil =>
    cases bs with
    | nil => rw [List.foldl_nil, he, List.foldr_nil, Bool.xor_false]
    | cons c bs => simp at h
  | cons a es ih =>
    cases bs with
    | nil => simp at h
    | cons c bs =>
      rw [List.map_cons, List.map_cons, List.cons.injEq] at h
      rw [List.foldl_cons, ih (eval_xor he h.1) h.2, List.foldr_cons, Bool.xor_assoc]

theorem eval_sumOf {es : List Expr} {bs : List Bool} (hne : es ≠ [])
    (h : es.map (m.eval σ) = bs.map fun b => some [b]) :
    m.eval σ (sumOf es) = some [bs.foldr xor false] := by
  cases es with
  | nil => exact absurd rfl hne
  | cons e es =>
    cases bs with
    | nil => simp at h
    | cons b bs =>
      rw [List.map_cons, List.map_cons, List.cons.injEq] at h
      rw [sumOf, eval_foldl_xor h.1 h.2, List.foldr_cons]

end eval

/-! ### Families of single bits -/

section bits

variable {m : Module} {σ : Valuation} {α : Type} {x : String} {xs : List α}

/-- The drives of the bits of one net, one for each entry of a list. -/
def bitDrives (x : String) (xs : List α) (e : Nat → α → Expr) : List Drive :=
  xs.mapIdx fun i a => ⟨x, some (.literal i), e i a⟩

theorem filterMap_mapIdx {β γ : Type} {f : Nat → α → β} {g : β → Option γ} {h : Nat → α → γ}
    (hg : ∀ i a, g (f i a) = some (h i a)) : (xs.mapIdx f).filterMap g = xs.mapIdx h := by
  induction xs generalizing f h with
  | nil => rfl
  | cons a xs ih =>
    rw [List.mapIdx_cons, List.mapIdx_cons, List.filterMap_cons, hg, ih fun i b => hg (i + 1) b]

theorem filterMap_drive?_mapIdx (x : String) (xs : List α) (e : Nat → α → Expr) :
    (xs.mapIdx fun i a => Item.assign x (some (.literal i)) (e i a)).filterMap Item.drive? =
      bitDrives x xs e :=
  filterMap_mapIdx fun _ _ => rfl

theorem filterMap_declared?_mapIdx (x : String) (xs : List α) (e : Nat → α → Expr) :
    (xs.mapIdx fun i a => Item.assign x (some (.literal i)) (e i a)).filterMap Item.declared? = [] := by
  rw [List.filterMap_eq_nil_iff]
  intro a ha
  obtain ⟨i, h, rfl⟩ := List.exists_of_mem_mapIdx ha
  rfl

theorem countP_mapIdx {β : Type} {f : Nat → α → β} {p : β → Bool} {k : Nat} (hk : k < xs.length)
    (h : ∀ i a, p (f i a) = decide (i = k)) : (xs.mapIdx f).countP p = 1 := by
  induction xs generalizing f k with
  | nil => exact absurd hk (Nat.not_lt_zero k)
  | cons a xs ih =>
    rw [List.mapIdx_cons, List.countP_cons, h]
    cases k with
    | zero =>
      have hnone : (xs.mapIdx fun i => f (i + 1)).countP p = 0 := by
        rw [List.countP_eq_zero]
        intro b hb
        obtain ⟨i, hi, rfl⟩ := List.exists_of_mem_mapIdx hb
        rw [h]
        simp
      rw [hnone]
      rfl
    | succ k =>
      have hrest : (xs.mapIdx fun i => f (i + 1)).countP p = 1 :=
        ih (Nat.lt_of_succ_lt_succ hk) fun i b => by
          rw [h]
          simp
      rw [hrest]
      rfl

theorem countP_bitDrives (e : Nat → α → Expr) {k : Nat} (hk : k < xs.length) :
    (bitDrives x xs e).countP (m.covers x k) = 1 :=
  countP_mapIdx hk fun i a => by simp [Module.covers, Module.constant, Bool.beq_eq_decide_eq]

theorem countP_bitDrives_of_ne {y : String} (h : x ≠ y) (e : Nat → α → Expr) (k : Nat) :
    (bitDrives x xs e).countP (m.covers y k) = 0 := by
  rw [List.countP_eq_zero]
  intro d hd
  obtain ⟨i, hi, rfl⟩ := List.exists_of_mem_mapIdx hd
  simp [Module.covers, h]

/-- A family of bits settles the whole net. -/
theorem holds_bitDrives_iff {e : Nat → α → Expr} {v : Nat → α → Bool}
    (hlen : (σ x).length = xs.length)
    (hval : ∀ i a, xs[i]? = some a → m.eval σ (e i a) = some [v i a]) :
    (∀ d ∈ bitDrives x xs e, m.Holds σ d) ↔ σ x = xs.mapIdx v := by
  have hone : ∀ i a, xs[i]? = some a →
      (m.Holds σ ⟨x, some (.literal i), e i a⟩ ↔ (σ x)[i]? = some (v i a)) := by
    intro i a ha
    constructor
    · rintro ⟨j, b, hj, hb, heval⟩
      rw [hval i a ha] at heval
      cases hj
      cases heval
      exact hb
    · intro hb
      exact ⟨i, v i a, rfl, hb, hval i a ha⟩
  constructor
  · intro h
    apply List.ext_getElem (by rw [hlen, List.length_mapIdx])
    intro i hi hi'
    have hix : i < xs.length := hlen ▸ hi
    have ha := List.getElem?_eq_getElem hix
    have hmem : (⟨x, some (.literal i), e i xs[i]⟩ : Drive) ∈ bitDrives x xs e :=
      List.mem_mapIdx.2 ⟨i, hix, rfl⟩
    have hbit := (hone i xs[i] ha).1 (h _ hmem)
    rw [List.getElem?_eq_getElem hi, Option.some.injEq] at hbit
    rw [hbit, List.getElem_mapIdx]
  · intro h d hd
    obtain ⟨i, hi, rfl⟩ := List.exists_of_mem_mapIdx hd
    refine (hone i xs[i] (List.getElem?_eq_getElem hi)).2 ?_
    rw [h, List.getElem?_mapIdx, List.getElem?_eq_getElem hi, Option.map_some]

theorem width_of_declared (h : ∀ p ∈ m.declared, m.rangeWidth p.2 = some (σ p.1).length) :
    ∀ x n, m.width? x = some n → (σ x).length = n := by
  intro x n hx
  rw [Module.width?, Option.bind_eq_some_iff] at hx
  obtain ⟨range, hrange, hn⟩ := hx
  obtain ⟨ps, qs, hps, -⟩ := List.lookup_eq_some_iff.1 hrange
  have hmem : (x, range) ∈ m.declared := by
    rw [hps]
    exact List.mem_append_right ps List.mem_cons_self
  exact Option.some.inj ((h (x, range) hmem).symm.trans hn)

end bits

end MemoryCompiler.Verilog

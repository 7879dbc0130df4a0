import MemoryCompiler.Config.Check
import MemoryCompiler.Diagram.Connectivity
import MemoryCompiler.Proofs.Decimal.ShortestDigits
import MemoryCompiler.Proofs.Verilog.Token
import MemoryCompiler.Rtl.Design

/-!
# The edges of the graph of a design

Uses of nets are put on links one after the other. After each of them the links stand for the uses
so far (`Drawn`): one link for each pair of a driver and another node that uses one of its nets, with
these nets. `Drawn.addUse` is the step and `drawn_links` the run; `ofDesign_connectivity` reads the
graph off the links.
-/

namespace MemoryCompiler.Diagram

open Rtl (Module Role Direction)

/-! ### What drives a net -/

namespace Wiring

variable {w : Wiring}

theorem mem_drivers_of_driver? {net d : String} (h : w.driver? net = some d) : (net, d) ∈ w.drivers := by
  obtain ⟨h, -⟩ := Option.filter_eq_some_iff.1 h
  obtain ⟨pre, post, h, -⟩ := List.lookup_eq_some_iff.1 h
  rw [← List.mem_reverse, h]
  simp

theorem exists_mem_drivers_of_search {seen nets : List String} {d : String}
    (h : w.search seen nets = some d) : ∃ net, (net, d) ∈ w.drivers := by
  fun_induction Wiring.search w seen nets with
  | case1 => cases h
  | case2 seen net rest d' hd =>
    cases h
    exact ⟨net, mem_drivers_of_driver? hd⟩
  | case3 _ _ _ _ _ ih => exact ih h
  | case4 _ _ _ _ _ _ ih => exact ih h
  | case5 _ _ _ _ _ _ _ ih => exact ih h

theorem source?_of_driver? {net d : String} (h : w.driver? net = some d) : w.source? net = some d := by
  rw [source?, search, h]

theorem source?_of_assigned {net expr net' d : String} (h : w.driver? net = none)
    (hassigned : latest? net w.assigned = some expr) (hread : Rtl.identifiers expr = [net'])
    (hd : w.driver? net' = some d) : w.source? net = some d := by
  rw [source?, search, h]
  dsimp only
  rw [dif_neg (by simp)]
  split
  · next hnone =>
    rw [hassigned] at hnone
    cases hnone
  · next expr' hsome =>
    cases hassigned.symm.trans hsome
    rw [hread, List.append_nil, search, hd]

end Wiring

/-! ### Links -/

def Link.ends (l : Link) : String × String := (l.source, l.target)

section add

variable {l : Link} {net other : String} {w : Float}

theorem Link.ends_add : (l.add net w).ends = l.ends := by
  rw [Link.add]
  split_ifs
  · rfl
  · rfl

theorem Link.mem_nets_add : other ∈ (l.add net w).nets ↔ other ∈ l.nets ∨ other = net := by
  rw [Link.add]
  split_ifs with h
  · have hnet : net ∈ l.nets := List.contains_iff_mem.1 h
    exact ⟨.inl, fun hor => hor.elim id (fun heq => heq ▸ hnet)⟩
  · simp

theorem Link.nodup_nets_add (h : l.nets.Nodup) : (l.add net w).nets.Nodup := by
  rw [Link.add]
  split_ifs with hnet
  · exact h
  · have hnew : net ∉ l.nets := fun hmem => hnet (List.contains_iff_mem.2 hmem)
    simpa [List.nodup_append] using ⟨h, fun a ha heq => hnew (heq ▸ ha)⟩

end add

section keys

variable {s s' t t' net : String} {w : Float}

/-- A key tells its two nodes apart, as long as the names of drivers have no hyphen. -/
theorem key_inj (hs : '-' ∉ s.toList) (hs' : '-' ∉ s'.toList) :
    s ++ "->" ++ t = s' ++ "->" ++ t' ↔ s = s' ∧ t = t' := by
  constructor
  · intro h
    have hchars : s.toList ++ '-' :: '>' :: t.toList = s'.toList ++ '-' :: '>' :: t'.toList := by
      simpa using congrArg String.toList h
    have htake : ∀ {cs rest : List Char}, '-' ∉ cs → (cs ++ '-' :: rest).takeWhile (· ≠ '-') = cs := by
      intro cs rest hcs
      have hpos : ∀ c ∈ cs, decide (c ≠ '-') = true := fun c hc => by
        simpa using fun heq : c = '-' => hcs (heq ▸ hc)
      rw [List.takeWhile_append_of_pos hpos]
      simp
    have hstart : s.toList = s'.toList := by
      rw [← htake hs, hchars, htake hs']
    rw [hstart, List.append_cancel_left_eq] at hchars
    simp only [List.cons.injEq, true_and] at hchars
    exact ⟨String.toList_inj.1 hstart, String.toList_inj.1 hchars⟩
  · rintro ⟨rfl, rfl⟩
    rfl

theorem addToLinks_cases {links : List Link} (hs : '-' ∉ s.toList)
    (hlinks : ∀ l ∈ links, '-' ∉ l.source.toList) :
    (∃ before l after, links = before ++ l :: after ∧ l.ends = (s, t) ∧
      addToLinks s t net w links = before ++ l.add net w :: after) ∨
    (s, t) ∉ links.map Link.ends ∧
      addToLinks s t net w links = links ++ [Link.add ⟨s, t, [], 0⟩ net w] := by
  induction links with
  | nil => exact .inr ⟨List.not_mem_nil, rfl⟩
  | cons l rest ih =>
    have hkey : l.key = s ++ "->" ++ t ↔ l.ends = (s, t) :=
      (key_inj (hlinks l List.mem_cons_self) hs).trans Prod.mk_inj.symm
    rw [addToLinks]
    by_cases hends : l.ends = (s, t)
    · rw [if_pos (hkey.2 hends)]
      exact .inl ⟨[], l, rest, rfl, hends, rfl⟩
    · rw [if_neg (mt hkey.1 hends)]
      rcases ih fun l' hl' => hlinks l' (List.mem_cons_of_mem l hl') with
        ⟨before, l', after, rfl, hl', hadd⟩ | ⟨hnew, hadd⟩
      · exact .inl ⟨l :: before, l', after, rfl, hl', congrArg (l :: ·) hadd⟩
      · refine .inr ⟨?_, congrArg (l :: ·) hadd⟩
        rw [List.map_cons, List.mem_cons, not_or]
        exact ⟨Ne.symm hends, hnew⟩

end keys

/-! ### The links of some uses -/

namespace Context

variable (x : Context)

/-- The sum of the declared widths of some nets, as it is added up in doubles. -/
def widthSum (nets : List String) : Float := nets.foldl (fun w net => w + .ofNat (x.width net)) 0

/-- A link with the nets that its source drives among those that its target uses. -/
structure Links (uses : List Use) (l : Link) : Prop where
  apart : l.source ≠ l.target
  nodup : l.nets.Nodup
  mem_nets_iff : ∀ net, net ∈ l.nets ↔ ⟨net, l.target⟩ ∈ uses ∧ x.wiring.source? net = some l.source
  width_eq : l.width = x.widthSum l.nets

/-- The links stand for some uses. -/
structure Drawn (uses : List Use) (links : List Link) : Prop where
  distinct : (links.map Link.ends).Nodup
  isLink : ∀ l ∈ links, x.Links uses l
  nonempty : ∀ l ∈ links, l.nets ≠ []
  complete : ∀ u ∈ uses, ∀ s, x.wiring.source? u.net = some s → s ≠ u.load →
    (s, u.load) ∈ links.map Link.ends

variable {x} {uses : List Use} {u : Use} {l : Link}

theorem Links.append_of_ne (h : x.Links uses l)
    (hu : ¬ (x.wiring.source? u.net = some l.source ∧ u.load = l.target)) : x.Links (uses ++ [u]) l where
  apart := h.apart
  nodup := h.nodup
  mem_nets_iff net := by
    rw [h.mem_nets_iff, List.mem_append, List.mem_singleton, or_and_right]
    refine (or_iff_left ?_).symm
    rintro ⟨rfl, hsource⟩
    exact hu ⟨hsource, rfl⟩
  width_eq := h.width_eq

theorem widthSum_append (nets : List String) (net : String) :
    x.widthSum (nets ++ [net]) = x.widthSum nets + .ofNat (x.width net) := List.foldl_concat ..

theorem Links.append_add (h : x.Links uses l) (hsource : x.wiring.source? u.net = some l.source)
    (hload : u.load = l.target) : x.Links (uses ++ [u]) (l.add u.net (.ofNat (x.width u.net))) := by
  obtain ⟨hs, ht⟩ : (l.add u.net (.ofNat (x.width u.net))).source = l.source ∧
      (l.add u.net (.ofNat (x.width u.net))).target = l.target := Prod.mk_inj.1 Link.ends_add
  constructor
  · rw [hs, ht]
    exact h.apart
  · exact Link.nodup_nets_add h.nodup
  · intro net
    rw [Link.mem_nets_add, h.mem_nets_iff, hs, ht, List.mem_append, List.mem_singleton, or_and_right]
    refine or_congr_right ⟨?_, ?_⟩
    · rintro rfl
      exact ⟨by rw [← hload], hsource⟩
    · rintro ⟨rfl, -⟩
      rfl
  · rw [Link.add]
    split_ifs
    · exact h.width_eq
    · exact (congrArg (· + Float.ofNat (x.width u.net)) h.width_eq).trans (widthSum_append ..).symm

theorem Drawn.links_opened {links : List Link} (h : x.Drawn uses links) {s t : String} (hst : s ≠ t)
    (hnew : (s, t) ∉ links.map Link.ends) : x.Links uses ⟨s, t, [], 0⟩ where
  apart := hst
  nodup := List.nodup_nil
  mem_nets_iff net := by
    refine iff_of_false List.not_mem_nil ?_
    rintro ⟨huse, hsource⟩
    exact hnew (h.complete _ huse s hsource hst)
  width_eq := rfl

theorem Drawn.source_eq {links : List Link} (h : x.Drawn uses links) (hl : l ∈ links) :
    ∃ net, x.wiring.source? net = some l.source := by
  obtain ⟨net, hnet⟩ := List.exists_mem_of_ne_nil _ (h.nonempty l hl)
  exact ⟨net, (((h.isLink l hl).mem_nets_iff net).1 hnet).2⟩

theorem Drawn.append_idle {links : List Link} (h : x.Drawn uses links)
    (hu : ∀ s, x.wiring.source? u.net = some s → s = u.load) : x.Drawn (uses ++ [u]) links where
  distinct := h.distinct
  isLink l hl := (h.isLink l hl).append_of_ne fun ⟨hsource, hload⟩ =>
    (h.isLink l hl).apart ((hu _ hsource).trans hload)
  nonempty := h.nonempty
  complete := by
    intro u' hu' s hsource hs
    rcases List.mem_append.1 hu' with hold | hnew
    · exact h.complete u' hold s hsource hs
    · cases List.mem_singleton.1 hnew
      exact absurd (hu s hsource) hs

theorem Drawn.append_use {links links' : List Link} (h : x.Drawn uses links) {s : String}
    (hsource : x.wiring.source? u.net = some s) (hdistinct : (links'.map Link.ends).Nodup)
    (hends : ∀ ends, ends ∈ links.map Link.ends ∨ ends = (s, u.load) → ends ∈ links'.map Link.ends)
    (hmem : ∀ l' ∈ links', l' ∈ links ∧ l'.ends ≠ (s, u.load) ∨
      ∃ l, x.Links uses l ∧ l.ends = (s, u.load) ∧ l' = l.add u.net (.ofNat (x.width u.net))) :
    x.Drawn (uses ++ [u]) links' where
  distinct := hdistinct
  isLink := by
    intro l' hl'
    rcases hmem l' hl' with ⟨hold, hother⟩ | ⟨l, hl, hboth, rfl⟩
    · refine (h.isLink l' hold).append_of_ne fun ⟨hs, hload⟩ => hother ?_
      cases hsource.symm.trans hs
      exact Prod.ext rfl hload.symm
    · obtain ⟨hs, ht⟩ := Prod.mk_inj.1 hboth
      exact hl.append_add (hs ▸ hsource) ht.symm
  nonempty := by
    intro l' hl'
    rcases hmem l' hl' with ⟨hold, -⟩ | ⟨l, -, -, rfl⟩
    · exact h.nonempty l' hold
    · exact List.ne_nil_of_mem (Link.mem_nets_add.2 (.inr rfl))
  complete := by
    intro u' hu' s' hs' hne
    rcases List.mem_append.1 hu' with hold | hnew
    · exact hends _ (.inl (h.complete u' hold s' hs' hne))
    · cases List.mem_singleton.1 hnew
      cases hsource.symm.trans hs'
      exact hends _ (.inr rfl)

theorem Drawn.put_on {before after : List Link} (h : x.Drawn uses (before ++ l :: after))
    (hsource : x.wiring.source? u.net = some l.source) (hload : u.load = l.target) :
    x.Drawn (uses ++ [u]) (before ++ l.add u.net (.ofNat (x.width u.net)) :: after) := by
  have hsame : (before ++ l.add u.net (.ofNat (x.width u.net)) :: after).map Link.ends =
      (before ++ l :: after).map Link.ends := by
    simp [Link.ends_add]
  have hboth : l.ends = (l.source, u.load) := Prod.ext rfl hload.symm
  have hdistinct := h.distinct
  rw [List.map_append, List.map_cons, List.nodup_middle, List.nodup_cons, ← List.map_append] at hdistinct
  refine h.append_use hsource (hsame ▸ h.distinct) ?_ ?_
  · rintro ends (hold | rfl)
    · rwa [hsame]
    · rw [hsame, ← hboth]
      simp
  · intro l' hl'
    rw [List.mem_append, List.mem_cons, or_left_comm, ← List.mem_append] at hl'
    rcases hl' with rfl | hother
    · exact .inr ⟨l, h.isLink l (by simp), hboth, rfl⟩
    · refine .inl ⟨?_, fun heq => hdistinct.1 ?_⟩
      · rw [List.mem_append, List.mem_cons, or_left_comm, ← List.mem_append]
        exact .inr hother
      · rw [hboth, ← heq]
        exact List.mem_map_of_mem hother

theorem Drawn.put_new {links : List Link} (h : x.Drawn uses links) {s : String}
    (hsource : x.wiring.source? u.net = some s) (hs : s ≠ u.load)
    (hnew : (s, u.load) ∉ links.map Link.ends) :
    x.Drawn (uses ++ [u]) (links ++ [Link.add ⟨s, u.load, [], 0⟩ u.net (.ofNat (x.width u.net))]) := by
  have hends : (links ++ [Link.add ⟨s, u.load, [], 0⟩ u.net (.ofNat (x.width u.net))]).map Link.ends =
      links.map Link.ends ++ [(s, u.load)] := by
    rw [List.map_append, List.map_singleton, Link.ends_add]
    rfl
  refine h.append_use hsource ?_ ?_ ?_
  · rw [hends, List.nodup_append_comm]
    exact List.nodup_cons.2 ⟨hnew, h.distinct⟩
  · intro ends hor
    rw [hends, List.mem_append, List.mem_singleton]
    exact hor
  · intro l' hl'
    rcases List.mem_append.1 hl' with hold | hadded
    · exact .inl ⟨hold, fun heq => hnew (heq ▸ List.mem_map_of_mem hold)⟩
    · exact .inr ⟨_, h.links_opened hs hnew, rfl, List.mem_singleton.1 hadded⟩

/-- Each use keeps the links as they should be. -/
theorem Drawn.addUse {links : List Link} (h : x.Drawn uses links)
    (hdrivers : ∀ net s, x.wiring.source? net = some s → '-' ∉ s.toList) (u : Use) :
    x.Drawn (uses ++ [u]) (x.addUse links u) := by
  cases hsource : x.wiring.source? u.net with
  | none =>
    rw [Context.addUse, hsource]
    refine h.append_idle fun s hs => ?_
    rw [hsource] at hs
    cases hs
  | some s =>
    rw [Context.addUse, hsource]
    dsimp only
    split_ifs with hload
    · refine h.append_idle fun s' hs' => ?_
      cases hsource.symm.trans hs'
      exact hload
    · have hlinks : ∀ l ∈ links, '-' ∉ l.source.toList := by
        intro l hl
        obtain ⟨net, hnet⟩ := h.source_eq hl
        exact hdrivers net _ hnet
      rcases addToLinks_cases (hdrivers _ _ hsource) hlinks with
        ⟨before, l, after, rfl, hboth, hadd⟩ | ⟨hnew, hadd⟩
      · obtain ⟨rfl, ht⟩ := Prod.mk_inj.1 hboth
        rw [hadd]
        exact h.put_on hsource ht.symm
      · rw [hadd]
        exact h.put_new hsource hload hnew

theorem drawn_nil : x.Drawn [] [] where
  distinct := List.nodup_nil
  isLink _ hl := absurd hl List.not_mem_nil
  nonempty _ hl := absurd hl List.not_mem_nil
  complete _ hu := absurd hu List.not_mem_nil

theorem drawn_links (hdrivers : ∀ net s, x.wiring.source? net = some s → '-' ∉ s.toList) :
    x.Drawn x.uses x.links := by
  have hrun : ∀ (rest done : List Use) (links : List Link), x.Drawn done links →
      x.Drawn (done ++ rest) (rest.foldl x.addUse links) := by
    intro rest
    induction rest with
    | nil =>
      intro done links h
      rwa [List.append_nil]
    | cons u rest ih =>
      intro done links h
      rw [List.append_cons]
      exact ih _ _ (h.addUse hdrivers u)
  exact hrun x.uses [] [] drawn_nil

/-! ### The graph of the links -/

variable (x) in
/-- A node uses a net: an instance that reads it at a connection to no output of its module, or the
output ports, of which it is one. -/
def IsUse (net load : String) : Prop :=
  (∃ i ∈ x.top.instances, i.name = load ∧ ∃ c ∈ i.connections, net ∈ Rtl.identifiers c.expr ∧
    ¬ ∃ m p, x.module? i.moduleName = some m ∧ m.port? c.port = some p ∧ p.direction = .output) ∨
  load = outputsId ∧ ∃ p ∈ x.top.ports, p.direction = .output ∧ p.name = net

theorem isOutput_iff {i : Rtl.Instance} {c : Rtl.Connection} : x.isOutput i c = true ↔
    ∃ m p, x.module? i.moduleName = some m ∧ m.port? c.port = some p ∧ p.direction = .output := by
  rw [isOutput]
  cases hm : x.module? i.moduleName with
  | none => simp
  | some m =>
    cases hp : m.port? c.port with
    | none => simp [hp]
    | some p => simp [hp]

theorem mem_uses {net load : String} : ⟨net, load⟩ ∈ x.uses ↔ x.IsUse net load := by
  rw [uses, List.mem_append, IsUse]
  refine or_congr ?_ ?_
  · simp only [List.mem_flatMap, List.mem_filter, List.mem_map, Bool.not_eq_true', Use.mk.injEq,
      ← Bool.not_eq_true, isOutput_iff]
    constructor
    · rintro ⟨i, hi, c, ⟨hc, hread⟩, _, hnet, rfl, rfl⟩
      exact ⟨i, hi, rfl, c, hc, hnet, hread⟩
    · rintro ⟨i, hi, rfl, c, hc, hnet, hread⟩
      exact ⟨i, hi, c, ⟨hc, hread⟩, net, hnet, rfl, rfl⟩
  · simp only [List.mem_map, List.mem_filter, beq_iff_eq, Use.mk.injEq]
    constructor
    · rintro ⟨p, ⟨hp, hout⟩, rfl, rfl⟩
      exact ⟨rfl, p, hp, hout, rfl⟩
    · rintro ⟨rfl, p, hp, hout, rfl⟩
      exact ⟨p, ⟨hp, hout⟩, rfl, rfl⟩

theorem source_mem {net s : String} (h : x.wiring.source? net = some s) :
    s = inputsId ∨ s ∈ x.top.instances.map (·.name) := by
  obtain ⟨net', hnet⟩ := Wiring.exists_mem_drivers_of_search h
  rcases List.mem_append.1 hnet with hport | hinst
  · obtain ⟨p, -, hp⟩ := List.mem_map.1 hport
    exact .inl (congrArg Prod.snd hp).symm
  · obtain ⟨i, hi, hconn⟩ := List.mem_flatMap.1 hinst
    obtain ⟨c, -, hc⟩ := List.mem_map.1 hconn
    exact .inr (List.mem_map.2 ⟨i, hi, congrArg Prod.snd hc⟩)

theorem load_mem {net load : String} (h : x.IsUse net load) :
    load = outputsId ∨ load ∈ x.top.instances.map (·.name) := by
  rcases h with ⟨i, hi, rfl, -⟩ | ⟨rfl, -⟩
  · exact .inr (List.mem_map_of_mem hi)
  · exact .inl rfl

theorem map_id_nodes : x.graph.nodes.map Node.id =
    inputsId :: x.top.instances.map (·.name) ++ [outputsId] := by
  simp [graph, portsNode, instanceNode, Function.comp_def]

theorem exists_link_of_mem_edges {e : Edge} (he : e ∈ x.graph.edges) :
    ∃ i, ∃ l ∈ x.links, e = linkEdge i l := by
  obtain ⟨i, hi, rfl⟩ := List.mem_mapIdx.1 he
  exact ⟨i, _, List.getElem_mem hi, rfl⟩

theorem map_ends_edges :
    (x.graph.edges.map fun e => (e.source, e.target)) = x.links.map Link.ends := by
  refine List.ext_getElem (by simp [graph]) fun i _ _ => ?_
  simp [graph, linkEdge, Link.ends]

theorem nodup_edge_ids : (x.graph.edges.map Edge.id).Nodup := by
  have hids : x.graph.edges.map Edge.id =
      (List.range x.links.length).map fun i => some ("e" ++ Decimal.natText i) := by
    refine List.ext_getElem (by simp [graph]) fun i _ _ => ?_
    simp [graph, linkEdge]
  rw [hids]
  refine List.nodup_range.map fun i j hij => Decimal.natText_injective ?_
  have hchars := congrArg String.toList (Option.some.inj hij)
  rw [String.toList_append, String.toList_append, List.append_cancel_left_eq] at hchars
  exact String.toList_inj.1 hchars

variable (x) in
/-- An edge shows some nets: its label lists each net that its source drives and its target uses, once,
and its width is the sum of their widths, exact below `2 ^ 53`. -/
structure Carries (e : Edge) (nets : List String) : Prop where
  label : e.label = some (", ".intercalate nets)
  nodup : nets.Nodup
  mem_iff : ∀ net, net ∈ nets ↔ x.IsUse net e.target ∧ x.wiring.source? net = some e.source
  width : e.attr? "width" = some (Decimal.text (x.widthSum nets))
  width_exact : (nets.map x.width).sum < 2 ^ 53 →
    e.attr? "width" = some (Decimal.natText (nets.map x.width).sum)

theorem widthSum_of_lt {nets : List String} (h : (nets.map x.width).sum < 2 ^ 53) :
    x.widthSum nets = .ofNat (nets.map x.width).sum := by
  have hsum := Decimal.foldl_add_ofNat (n := 0) x.width nets
  rw [Nat.zero_add] at hsum
  exact hsum h

theorem carries_linkEdge (h : x.Links x.uses l) (i : Nat) : x.Carries (linkEdge i l) l.nets := by
  have hwidth : (linkEdge i l).attr? "width" = some (Decimal.text (x.widthSum l.nets)) := by
    rw [← h.width_eq]
    rfl
  exact { label := rfl
          nodup := h.nodup
          mem_iff := fun net => by
            rw [← mem_uses]
            exact h.mem_nets_iff net
          width := hwidth
          width_exact := fun hlt => by
            rw [hwidth, widthSum_of_lt hlt, Decimal.text_ofNat hlt] }

end Context

theorem filter_eq_singleton {α β : Type} [DecidableEq β] {f : α → β} {as : List α} {a : α}
    (h : (as.map f).Nodup) (ha : a ∈ as) : as.filter (fun b => f b = f a) = [a] := by
  induction as with
  | nil => cases ha
  | cons b as ih =>
    obtain ⟨hb, has⟩ := List.nodup_cons.1 h
    rcases List.mem_cons.1 ha with rfl | ha
    · have hnone : as.filter (fun b => f b = f a) = [] := by
        refine List.filter_eq_nil_iff.2 fun b hmem heq => hb ?_
        rw [← of_decide_eq_true heq]
        exact List.mem_map_of_mem hmem
      rw [List.filter_cons_of_pos (by simp), hnone]
    · have hne : f b ≠ f a := fun heq => hb (heq ▸ List.mem_map_of_mem ha)
      rw [List.filter_cons_of_neg (by simpa using hne), ih has ha]

/-- The graph of a design shows what drives what in its top level. The names of the instances need no
more than to be without a hyphen, which no identifier has. -/
theorem ofDesign_connectivity {d : Rtl.Design} {top : Module} (htop : d.module? .top = some top)
    (hnames : ∀ i ∈ top.instances, '-' ∉ i.name.toList) :
    let x : Context := ⟨top, d.modules⟩
    let g := ofDesign d
    g.nodes.map Node.id = inputsId :: top.instances.map (·.name) ++ [outputsId] ∧
    (∀ net load s, x.IsUse net load → x.wiring.source? net = some s → s ≠ load →
      ∃ e nets, g.edges.filter (fun e => (e.source, e.target) = (s, load)) = [e] ∧
        x.Carries e nets ∧ net ∈ nets) ∧
    (∀ e ∈ g.edges, e.source ≠ e.target ∧ ∃ nets, nets ≠ [] ∧ x.Carries e nets) ∧
    (g.edges.map fun e => (e.source, e.target)).Nodup ∧
    (∀ e ∈ g.edges, e.source ∈ g.nodes.map Node.id ∧ e.target ∈ g.nodes.map Node.id) ∧
    (g.edges.map Edge.id).Nodup := by
  intro x g
  have hgraph : g = x.graph := by
    show ofDesign d = _
    rw [ofDesign, htop]
  have hdrivers : ∀ net s, x.wiring.source? net = some s → '-' ∉ s.toList := by
    intro net s hs
    rcases Context.source_mem hs with rfl | hname
    · decide
    · obtain ⟨i, hi, rfl⟩ := List.mem_map.1 hname
      exact hnames i hi
  have hdrawn := Context.drawn_links hdrivers
  have hends := Context.map_ends_edges (x := x)
  have hdistinct : (g.edges.map fun e => (e.source, e.target)).Nodup := by
    rw [hgraph, hends]
    exact hdrawn.distinct
  have hedge : ∀ e ∈ g.edges, e.source ≠ e.target ∧ ∃ nets, nets ≠ [] ∧ x.Carries e nets := by
    intro e he
    rw [hgraph] at he
    obtain ⟨i, l, hl, rfl⟩ := Context.exists_link_of_mem_edges he
    exact ⟨(hdrawn.isLink l hl).apart, l.nets, hdrawn.nonempty l hl,
      Context.carries_linkEdge (hdrawn.isLink l hl) i⟩
  refine ⟨hgraph ▸ Context.map_id_nodes, ?_, hedge, hdistinct, ?_, hgraph ▸ Context.nodup_edge_ids⟩
  · intro net load s huse hsource hne
    have hmem := hdrawn.complete ⟨net, load⟩ (Context.mem_uses.2 huse) s hsource hne
    rw [← hends, ← hgraph] at hmem
    obtain ⟨e, he, hboth⟩ := List.mem_map.1 hmem
    obtain ⟨-, nets, -, hcarries⟩ := hedge e he
    obtain ⟨rfl, rfl⟩ := Prod.mk_inj.1 hboth
    exact ⟨e, nets, filter_eq_singleton hdistinct he, hcarries,
      (hcarries.mem_iff net).2 ⟨huse, hsource⟩⟩
  · intro e he
    obtain ⟨-, nets, hne, hcarries⟩ := hedge e he
    obtain ⟨net, hnet⟩ := List.exists_mem_of_ne_nil nets hne
    obtain ⟨huse, hsource⟩ := (hcarries.mem_iff net).1 hnet
    rw [hgraph, Context.map_id_nodes]
    have hs := Context.source_mem hsource
    have ht := Context.load_mem huse
    simp only [List.mem_append, List.mem_cons]
    tauto

theorem ofDesign_connectivity_plain : ∃ (c : Config) (top : Module),
    c.design.module? .top = some top ∧ (∀ i ∈ top.instances, '-' ∉ i.name.toList) ∧
    ∃ e nets, (ofDesign c.design).edges.filter (fun e => (e.source, e.target) = ("inputs", "u_core")) = [e] ∧
      (Context.mk top c.design.modules).Carries e nets ∧ "wcode" ∈ nets := by
  let c : Config := ⟨8, 8, 2, 0.75, 7, false, false, false, false⟩
  have hnames : ∀ i ∈ c.topModule.instances, '-' ∉ i.name.toList := by decide +kernel
  obtain ⟨-, huses, -⟩ := ofDesign_connectivity (show c.design.module? .top = some c.topModule from rfl) hnames
  refine ⟨c, c.topModule, rfl, hnames, huses "wcode" "u_core" "inputs" ?_ ?_ (by decide)⟩
  · exact Context.mem_uses.1 (by decide +kernel)
  · exact Wiring.source?_of_assigned (by decide +kernel) (by decide +kernel)
      (show Rtl.identifiers "wdata" = ["wdata"] by decide) (by decide +kernel)

/-- Above `2 ^ 53` the sum of the widths may be rounded. -/
theorem width_rounded : ∃ (c : Config) (top : Module),
    Config.ofDocument (.record [("depth", .ofNat 2), ("width", .ofNat 9007199254740991), ("banks", .ofNat 1),
      ("voltage", .number 0.75), ("process_node", .ofNat 7)]) .standard = .ok c ∧
    c.design.module? .top = some top ∧ (∀ i ∈ top.instances, Verilog.isIdentifier i.name = true) ∧
    (top.instances.map (·.name)).Nodup ∧ inputsId ∉ top.instances.map (·.name) ∧
    outputsId ∉ top.instances.map (·.name) ∧
    ∃ e ∈ (ofDesign c.design).edges, e.label = some (", ".intercalate ["clk", "ce", "we", "addr", "wcode"]) ∧
      (["clk", "ce", "we", "addr", "wcode"].map (Context.mk top c.design.modules).width).sum =
        9007199254740995 ∧
      e.attr? "width" = some "9007199254740996" := by
  let c : Config := ⟨2, 9007199254740991, 1, 0.75, 7, false, false, false, false⟩
  have hdirect : ∀ net ∈ ["clk", "ce", "we", "addr"],
      (Context.mk c.topModule c.modules).wiring.source? net = some "inputs" := by
    have hdriver : ∀ net ∈ ["clk", "ce", "we", "addr"],
        (Context.mk c.topModule c.modules).wiring.driver? net = some "inputs" := by decide +kernel
    exact fun net hnet => Wiring.source?_of_driver? (hdriver net hnet)
  have hwcode : (Context.mk c.topModule c.modules).wiring.source? "wcode" = some "inputs" :=
    Wiring.source?_of_assigned (by decide +kernel) (by decide +kernel)
      (show Rtl.identifiers "wdata" = ["wdata"] by decide) (by decide +kernel)
  have hrdata : (Context.mk c.topModule c.modules).wiring.source? "rdata" = some "u_core" :=
    Wiring.source?_of_assigned (by decide +kernel) (by decide +kernel)
      (show Rtl.identifiers "rcode" = ["rcode"] by decide) (by decide +kernel)
  have huses : (Context.mk c.topModule c.modules).uses = [⟨"clk", "u_core"⟩, ⟨"ce", "u_core"⟩,
      ⟨"we", "u_core"⟩, ⟨"addr", "u_core"⟩, ⟨"wcode", "u_core"⟩, ⟨"rdata", "outputs"⟩] := by
    decide +kernel
  have hlinks : (Context.mk c.topModule c.modules).links =
      [⟨"inputs", "u_core", ["clk", "ce", "we", "addr", "wcode"], .ofNat 9007199254740996⟩,
        ⟨"u_core", "outputs", ["rdata"], .ofNat 9007199254740991⟩] := by
    rw [Context.links, huses]
    simp only [List.foldl_cons, List.foldl_nil, Context.addUse, hdirect, hwcode, hrdata, List.mem_cons,
      true_or, or_true]
    decide +kernel
  have hgraph : ofDesign c.design = (Context.mk c.topModule c.modules).graph := rfl
  refine ⟨c, c.topModule, toOption_eq_some_iff.1 (by decide +kernel), rfl, by decide +kernel,
    by decide +kernel, by decide +kernel, by decide +kernel, Context.linkEdge 0
      ⟨"inputs", "u_core", ["clk", "ce", "we", "addr", "wcode"], .ofNat 9007199254740996⟩, ?_, rfl,
    by decide +kernel, by decide +kernel⟩
  rw [hgraph, Context.graph, hlinks]
  exact List.mem_cons_self

end MemoryCompiler.Diagram

import Mathlib
import MemoryCompiler.Diagram.Markup
import MemoryCompiler.Proofs.Xml.Reader

/-!
# Reading printed markup

`Runs s cs ts s'` says that the characters `cs` lead the scan from `s` to `s'` and give the tokens `ts`,
whatever follows. Runs are put together piece by piece (`Runs.append`), up to a run of a printed tree
(`runs_print`); its tokens build the tree again (`build_tokens`), so a printed document is read as what
it was printed from (`read_document`).
-/

namespace MemoryCompiler.Xml

open Diagram (Markup escape escapeChar)

/-! ### Runs of the scan -/

/-- The characters lead from one state to another and give some tokens. -/
def Runs (s : Scan) (cs : List Char) (ts : List Token) (s' : Scan) : Prop :=
  ∀ rest, s.tokens (cs ++ rest) = (s'.tokens rest).map (ts ++ ·)

section runs

variable {s s' s'' : Scan} {c : Char} {cs cs' : List Char} {ts ts' : List Token}

theorem Runs.nil (s : Scan) : Runs s [] [] s := fun rest => by
  simp

theorem Runs.append (h : Runs s cs ts s') (h' : Runs s' cs' ts' s'') :
    Runs s (cs ++ cs') (ts ++ ts') s'' := by
  intro rest
  rw [List.append_assoc, h, h', Option.map_map]
  simp [Function.comp_def]

theorem Runs.single (h : s.next c = some (ts, s')) : Runs s [c] ts s' := by
  intro rest
  rw [List.singleton_append, Scan.tokens, h]
  rfl

theorem Runs.cons {t : Token} (h : s.next c = some ([t], s')) (h' : Runs s' cs ts s'') :
    Runs s (c :: cs) (t :: ts) s'' :=
  (Runs.single h).append h'

/-- Inside a tag or an entity most characters give no token yet. -/
theorem Runs.skip (h : s.next c = some ([], s')) (h' : Runs s' cs ts s'') : Runs s (c :: cs) ts s'' :=
  (Runs.single h).append h'

theorem Runs.append_silent (h : Runs s cs [] s') (h' : Runs s' cs' ts s'') : Runs s (cs ++ cs') ts s'' :=
  h.append h'

end runs

/-! ### Texts -/

theorem escapeChar_cases (c : Char) :
    (∃ name, escapeChar c = '&' :: (name ++ [';']) ∧ ';' ∉ name ∧ entity? name = some c) ∨
    escapeChar c = [c] ∧ c ≠ '&' ∧ c ≠ '<' ∧ c ≠ '>' ∧ c ≠ '"' := by
  rw [escapeChar]
  split_ifs with hamp hlt hgt hquot hapos
  · exact .inl ⟨['a', 'm', 'p'], rfl, by decide, by rw [hamp]; decide⟩
  · exact .inl ⟨['l', 't'], rfl, by decide, by rw [hlt]; decide⟩
  · exact .inl ⟨['g', 't'], rfl, by decide, by rw [hgt]; decide⟩
  · exact .inl ⟨['q', 'u', 'o', 't'], rfl, by decide, by rw [hquot]; decide⟩
  · exact .inl ⟨['a', 'p', 'o', 's'], rfl, by decide, by rw [hapos]; decide⟩
  · exact .inr ⟨rfl, hamp, hlt, hgt, hquot⟩

theorem runs_reference {p : Place} {name reversed : List Char} {c : Char} (hname : ';' ∉ name)
    (hc : entity? (reversed.reverse ++ name) = some c) :
    Runs (.reference p reversed) (name ++ [';']) (p.put c).1 (p.put c).2 := by
  induction name generalizing reversed with
  | nil =>
    rw [List.append_nil] at hc
    refine Runs.single ?_
    rw [Scan.next, if_pos rfl, hc]
    rfl
  | cons d name ih =>
    rw [List.mem_cons, not_or] at hname
    have hnext : (Scan.reference p reversed).next d = some ([], .reference p (d :: reversed)) := by
      rw [Scan.next, if_neg (Ne.symm hname.1)]
    refine Runs.skip hnext (ih hname.2 ?_)
    rwa [List.reverse_cons, List.append_assoc]

theorem runs_escape_value (tag : Tag) (name : String) (cs reversed : List Char) :
    Runs (.text (.value tag name reversed)) (cs.flatMap escapeChar) []
      (.text (.value tag name (cs.reverse ++ reversed))) := by
  induction cs generalizing reversed with
  | nil => exact Runs.nil _
  | cons c cs ih =>
    have hrest := ih (c :: reversed)
    rw [List.flatMap_cons, List.reverse_cons, List.append_assoc]
    refine Runs.append_silent ?_ hrest
    rcases escapeChar_cases c with ⟨entity, hescape, hsemi, hc⟩ | ⟨hescape, hamp, hlt, -, hquot⟩
    · rw [hescape]
      exact Runs.skip rfl (runs_reference hsemi hc)
    · rw [hescape]
      refine Runs.single ?_
      rw [Scan.next, if_neg hlt, if_neg hamp, if_neg hquot]

theorem runs_escape_content (cs : List Char) (k : Nat) : ∃ k',
    Runs (.text (.content k)) (cs.flatMap escapeChar) (cs.map .char) (.text (.content k')) := by
  induction cs generalizing k with
  | nil => exact ⟨k, Runs.nil _⟩
  | cons c cs ih =>
    rcases escapeChar_cases c with ⟨entity, hescape, hsemi, hc⟩ | ⟨hescape, hamp, hlt, hgt, -⟩
    · obtain ⟨k', hrest⟩ := ih 0
      refine ⟨k', ?_⟩
      rw [List.flatMap_cons, hescape]
      have hrun : Runs (.text (.content k)) ('&' :: (entity ++ [';'])) [.char c] (.text (.content 0)) :=
        Runs.skip rfl (runs_reference hsemi hc)
      exact hrun.append hrest
    · obtain ⟨k', hrest⟩ := ih (if c = ']' then min (k + 1) 2 else 0)
      refine ⟨k', ?_⟩
      rw [List.flatMap_cons, hescape]
      refine Runs.cons ?_ hrest
      rw [Scan.next, if_neg hlt, if_neg hamp, if_neg fun h => hgt h.1]

/-- A text that needs no entity. -/
def Quiet (cs : List Char) : Prop := '<' ∉ cs ∧ '&' ∉ cs ∧ ¬ "]]>".toList <:+: cs

instance (cs : List Char) : Decidable (Quiet cs) := inferInstanceAs (Decidable (_ ∧ _ ∧ _))

theorem runs_quiet {cs : List Char} {k : Nat} (hk : k ≤ 2) (hlt : '<' ∉ cs) (hamp : '&' ∉ cs)
    (hend : ¬ "]]>".toList <:+: List.replicate k ']' ++ cs) : ∃ k',
    Runs (.text (.content k)) cs (cs.map .char) (.text (.content k')) := by
  induction cs generalizing k with
  | nil => exact ⟨k, Runs.nil _⟩
  | cons c cs ih =>
    rw [List.mem_cons, not_or] at hlt hamp
    have hnot : ¬ (c = '>' ∧ k = 2) := by
      rintro ⟨rfl, rfl⟩
      exact hend ⟨[], cs, rfl⟩
    have hnext : (Scan.text (.content k)).next c =
        some ([.char c], .text (.content (if c = ']' then min (k + 1) 2 else 0))) := by
      rw [Scan.next, if_neg (Ne.symm hlt.1), if_neg (Ne.symm hamp.1), if_neg hnot]
    -- The brackets counted so far stand for the end of what was read.
    have hrest : ¬ "]]>".toList <:+: List.replicate (if c = ']' then min (k + 1) 2 else 0) ']' ++ cs := by
      intro hin
      refine hend (hin.trans (List.IsSuffix.isInfix ?_))
      split_ifs with hbracket
      · refine ⟨List.replicate (k + 1 - min (k + 1) 2) ']', ?_⟩
        rw [← List.append_assoc, List.replicate_append_replicate, hbracket, List.append_cons,
          ← List.replicate_succ']
        congr 2
        omega
      · exact ⟨List.replicate k ']' ++ [c], by simp⟩
    obtain ⟨k', hruns⟩ := ih (by split_ifs <;> omega) hlt.2 hamp.2 hrest
    exact ⟨k', Runs.cons hnext hruns⟩

theorem runs_verbatim {s : String} (hstart : s.toList.head? = some '\n') (hquiet : Quiet s.toList) (k : Nat) :
    ∃ k', Runs (.text (.content k)) s.toList (s.toList.map .char) (.text (.content k')) := by
  obtain ⟨cs, hcs⟩ := List.head?_eq_some_iff.1 hstart
  obtain ⟨hlt, hamp, hend⟩ := hquiet
  rw [hcs, List.mem_cons, not_or] at hlt hamp
  rw [hcs] at hend ⊢
  -- The line end in front ends any brackets.
  obtain ⟨k', hruns⟩ := runs_quiet (Nat.zero_le 2) hlt.2 hamp.2
    fun hin => hend (hin.trans (List.suffix_cons _ _).isInfix)
  exact ⟨k', Runs.cons rfl hruns⟩

/-! ### Tags -/

def isName (s : String) : Bool :=
  match s.toList with
  | [] => false
  | c :: cs => startsName c && cs.all inName

theorem isName_iff {s : String} : isName s = true ↔
    ∃ c cs, s.toList = c :: cs ∧ startsName c = true ∧ ∀ d ∈ cs, inName d = true := by
  rw [isName]
  cases s.toList with
  | nil => simp
  | cons c cs => simp

theorem inName_of_startsName {c : Char} (h : startsName c = true) : inName c = true := by
  simp [inName, h]

theorem inName_of_isName {s : String} (h : isName s = true) {c : Char} (hc : c ∈ s.toList) :
    inName c = true := by
  obtain ⟨a, cs, hs, ha, hcs⟩ := isName_iff.1 h
  rw [hs] at hc
  rcases List.mem_cons.1 hc with rfl | hc
  · exact inName_of_startsName ha
  · exact hcs c hc

theorem isXmlChar_of_ascii {c : Char} (hlow : 0x20 ≤ c.toNat) (hhigh : c.toNat < 0x80) :
    isXmlChar c = true := by
  have h : c.toNat ≤ 0xD7FF := by omega
  simp [isXmlChar, hlow, h]

theorem isXmlChar_of_inName {c : Char} (h : inName c = true) : isXmlChar c = true := by
  have hcode : (65 ≤ c.toNat ∧ c.toNat ≤ 122) ∨ (45 ≤ c.toNat ∧ c.toNat ≤ 58) := by
    simp only [inName, startsName, Char.isAlpha, Char.isUpper, Char.isLower, Char.isDigit, Bool.or_eq_true,
      Bool.and_eq_true, decide_eq_true_eq, beq_iff_eq, ge_iff_le, UInt32.le_iff_toNat_le] at h
    rcases h with (((((h | h) | rfl) | rfl) | h) | rfl) | rfl
    · exact .inl ⟨h.1, h.2.trans (by decide)⟩
    · exact .inl ⟨le_trans (by decide) h.1, h.2⟩
    · decide
    · decide
    · exact .inr ⟨le_trans (by decide) h.1, h.2.trans (by decide)⟩
    · decide
    · decide
  exact isXmlChar_of_ascii (by omega) (by omega)

section tags

variable {cs reversed : List Char} {tag : Tag} {s : Scan} {name : String} {attrs : List (String × String)}

theorem runs_collect {state : List Char → Scan}
    (h : ∀ d ∈ cs, ∀ r, (state r).next d = some ([], state (d :: r))) :
    Runs (state reversed) cs [] (state (cs.reverse ++ reversed)) := by
  induction cs generalizing reversed with
  | nil => exact Runs.nil _
  | cons c cs ih =>
    rw [List.reverse_cons, List.append_assoc]
    exact Runs.skip (h c List.mem_cons_self reversed) (ih fun d hd => h d (List.mem_cons_of_mem c hd))

/-- The tag may go on with an attribute or end here. -/
def Scan.Ends (s : Scan) (tag : Tag) : Prop := ∀ c, inName c = false → s.next c = Scan.afterPart tag c

theorem ends_naming (reversed : List Char) :
    (Scan.naming reversed).Ends ⟨String.ofList reversed.reverse, []⟩ := by
  intro c hc
  rw [Scan.next, if_neg (by rw [hc]; decide)]

theorem ends_quoted (tag : Tag) : (Scan.quoted tag).Ends tag := fun _ _ => rfl

theorem runs_open (k : Nat) (hname : isName name = true) :
    ∃ s : Scan, s.Ends ⟨name, []⟩ ∧ Runs (.text (.content k)) ('<' :: name.toList) [] s := by
  obtain ⟨c, cs, hcs, hc, hrest⟩ := isName_iff.1 hname
  refine ⟨.naming name.toList.reverse, ?_, ?_⟩
  · have hends := ends_naming name.toList.reverse
    rwa [List.reverse_reverse, String.ofList_toList] at hends
  · have hslash : c ≠ '/' := by
      rintro rfl
      exact absurd hc (by decide)
    have hnext : Scan.opened.next c = some ([], .naming [c]) := by
      rw [Scan.next, if_neg hslash, if_pos hc]
    rw [hcs, List.reverse_cons]
    exact Runs.skip rfl (Runs.skip hnext (runs_collect fun d hd r => if_pos (hrest d hd)))

theorem runs_attr (hs : s.Ends tag) {value : String} (hname : isName name = true)
    (hnew : name ∉ tag.attrs.map Prod.fst) :
    Runs s (" " ++ name ++ "=\"" ++ escape value ++ "\"").toList []
      (.quoted ⟨tag.name, tag.attrs ++ [(name, value)]⟩) := by
  obtain ⟨c, cs, hcs, hc, hrest⟩ := isName_iff.1 hname
  have hinside : s.next ' ' = some ([], .inside tag) := hs ' ' (by decide)
  have hfirst : (Scan.inside tag).next c = some ([], .attrName tag [c]) := if_pos hc
  have hattr : Runs (.attrName tag [c]) cs [] (.attrName tag (cs.reverse ++ [c])) :=
    runs_collect fun d hd r => if_pos (hrest d hd)
  have hequals : (Scan.attrName tag (cs.reverse ++ [c])).next '=' = some ([], .equals tag name) := by
    rw [← List.reverse_cons, ← hcs, Scan.next, if_neg (by decide), if_pos rfl, List.reverse_reverse,
      String.ofList_toList]
  have hquote : (Scan.text (.value tag name (value.toList.reverse ++ []))).next '"' =
      some ([], .quoted ⟨tag.name, tag.attrs ++ [(name, value)]⟩) := by
    rw [Scan.next, if_neg (by decide), if_neg (by decide), if_pos rfl, if_neg hnew, List.append_nil,
      List.reverse_reverse, String.ofList_toList]
  have hchars : (" " ++ name ++ "=\"" ++ escape value ++ "\"").toList =
      ' ' :: c :: (cs ++ '=' :: '"' :: (value.toList.flatMap escapeChar ++ ['"'])) := by
    simp [escape, hcs]
  rw [hchars]
  exact Runs.skip hinside (Runs.skip hfirst (hattr.append_silent
    (Runs.skip hequals (Runs.skip rfl ((runs_escape_value tag name _ []).append_silent
      (Runs.single hquote))))))

/-- The attributes of a tag have different names, and their values are as is asked of them. -/
def AttrsOk (ok : String → Prop) (attrs : List (String × String)) : Prop :=
  (attrs.map Prod.fst).Nodup ∧ ∀ a ∈ attrs, isName a.1 = true ∧ ok a.2

theorem runs_attrs (hs : s.Ends tag) {ok : String → Prop} (hok : AttrsOk ok (tag.attrs ++ attrs)) : ∃ s' : Scan,
    s'.Ends ⟨tag.name, tag.attrs ++ attrs⟩ ∧ Runs s (Markup.attrsText attrs).toList [] s' := by
  induction attrs generalizing s tag with
  | nil =>
    rw [List.append_nil]
    exact ⟨s, hs, Runs.nil s⟩
  | cons a attrs ih =>
    obtain ⟨name, value⟩ := a
    have hsplit : tag.attrs ++ (name, value) :: attrs = tag.attrs ++ [(name, value)] ++ attrs :=
      List.append_cons ..
    have hnew : name ∉ tag.attrs.map Prod.fst := by
      have hnodup := hok.1
      rw [List.map_append, List.map_cons, List.nodup_middle, List.nodup_cons, List.mem_append, not_or] at hnodup
      exact hnodup.1.1
    have hname : isName name = true := (hok.2 (name, value) (by simp)).1
    obtain ⟨s', hends, hruns⟩ := ih (ends_quoted ⟨tag.name, tag.attrs ++ [(name, value)]⟩) (hsplit ▸ hok)
    refine ⟨s', hsplit ▸ hends, ?_⟩
    have htext : (Markup.attrsText ((name, value) :: attrs)).toList =
        (" " ++ name ++ "=\"" ++ escape value ++ "\"").toList ++ (Markup.attrsText attrs).toList := by
      simp [Markup.attrsText]
    rw [htext]
    exact (runs_attr hs hname hnew).append_silent hruns

theorem runs_close (hname : isName name = true) (k : Nat) :
    Runs (.text (.content k)) ("</" ++ name ++ ">").toList [.finish name] (.text (.content 0)) := by
  have hcollect : Runs (.closing []) name.toList [] (.closing (name.toList.reverse ++ [])) := by
    refine runs_collect fun d hd r => if_neg ?_
    rintro rfl
    exact absurd (inName_of_isName hname hd) (by decide)
  have hfinish : (Scan.closing (name.toList.reverse ++ [])).next '>' =
      some ([.finish name], .text (.content 0)) := by
    rw [Scan.next, if_pos rfl, List.append_nil, List.reverse_reverse, String.ofList_toList]
  have hchars : ("</" ++ name ++ ">").toList = '<' :: '/' :: (name.toList ++ ['>']) := by simp
  rw [hchars]
  exact Runs.skip rfl (Runs.skip rfl (hcollect.append_silent (Runs.single hfinish)))

end tags

/-! ### Allowed characters -/

section isText

variable {s t : String}

theorem isText_iff : isText s = true ↔ ∀ c ∈ s.toList, isXmlChar c = true := List.all_eq_true

@[simp] theorem isText_append : isText (s ++ t) = (isText s && isText t) := by
  simp [isText]

theorem isText_of_isName (h : isName s = true) : isText s = true :=
  isText_iff.2 fun _ hc => isXmlChar_of_inName (inName_of_isName h hc)

theorem isText_escape (h : isText s = true) : isText (escape s) = true := by
  rw [isText_iff] at h ⊢
  intro c hc
  rw [escape, String.toList_ofList] at hc
  obtain ⟨d, hd, hc⟩ := List.mem_flatMap.1 hc
  have hentity : ∀ e : String, isText e = true → c ∈ e.toList → isXmlChar c = true :=
    fun e he => isText_iff.1 he c
  rw [escapeChar] at hc
  split_ifs at hc
  · exact hentity "&amp;" (by decide) hc
  · exact hentity "&lt;" (by decide) hc
  · exact hentity "&gt;" (by decide) hc
  · exact hentity "&quot;" (by decide) hc
  · exact hentity "&apos;" (by decide) hc
  · rw [List.mem_singleton.1 hc]
    exact h d hd

theorem isText_attrsText {attrs : List (String × String)} (h : AttrsOk (isText · = true) attrs) :
    isText (Markup.attrsText attrs) = true := by
  rw [isText_iff]
  intro c hc
  rw [Markup.attrsText, String.toList_join, List.flatMap_map] at hc
  obtain ⟨a, ha, hc⟩ := List.mem_flatMap.1 hc
  obtain ⟨hname, hvalue⟩ := h.2 a ha
  have hattr : isText (" " ++ a.1 ++ "=\"" ++ escape a.2 ++ "\"") = true := by
    simp only [isText_append, isText_of_isName hname, isText_escape hvalue]
    decide
  exact isText_iff.1 hattr c hc

end isText

end MemoryCompiler.Xml

namespace MemoryCompiler.Diagram.Markup

open Xml (Item Token Runs isName isText Quiet AttrsOk chars)

/-! ### Trees -/

mutual

/-- The tags and characters of a piece. -/
def tokens : Markup → List Token
  | text s | verbatim s => s.toList.map .char
  | empty name attrs => [.empty ⟨name, attrs⟩]
  | element name attrs content => .start ⟨name, attrs⟩ :: (tokensIn content ++ [.finish name])

def tokensIn : List Markup → List Token
  | [] => []
  | m :: rest => tokens m ++ tokensIn rest

end

mutual

/-- What a piece is read as. -/
def items : Markup → List Item
  | text s | verbatim s => chars s
  | empty name attrs => [.element ⟨name, attrs⟩ []]
  | element name attrs content => [.element ⟨name, attrs⟩ (itemsIn content)]

def itemsIn : List Markup → List Item
  | [] => []
  | m :: rest => items m ++ itemsIn rest

end

mutual

/-- A piece that can be printed: with names for the tags and the attributes, and what stands there
verbatim on a line of its own and without anything to escape. What else is asked of all its texts is
left open. -/
def Printable (ok : String → Prop) : Markup → Prop
  | text s => ok s
  | verbatim s => s.toList.head? = some '\n' ∧ Quiet s.toList ∧ ok s
  | empty name attrs => isName name = true ∧ AttrsOk ok attrs
  | element name attrs content => isName name = true ∧ AttrsOk ok attrs ∧ PrintableIn ok content

def PrintableIn (ok : String → Prop) : List Markup → Prop
  | [] => True
  | m :: rest => Printable ok m ∧ PrintableIn ok rest

end

section printable

variable {ok : String → Prop}

mutual

theorem runs_print : ∀ (m : Markup) (_ : m.Printable ok) (k : Nat),
    ∃ k', Runs (.text (.content k)) (print m).toList m.tokens (.text (.content k'))
  | text s, _, k => by
    rw [print, escape, String.toList_ofList, tokens]
    exact Xml.runs_escape_content s.toList k
  | verbatim s, h, k => by
    rw [print, tokens]
    exact Xml.runs_verbatim h.1 h.2.1 k
  | empty name attrs, h, k => by
    obtain ⟨s, hs, hopen⟩ := Xml.runs_open k h.1
    obtain ⟨s', hs', hattrs⟩ := Xml.runs_attrs hs h.2
    have hslash : s'.next '/' = some ([], .emptied ⟨name, attrs⟩) := hs' '/' (by decide)
    refine ⟨0, ?_⟩
    have hchars : (print (empty name attrs)).toList =
        '<' :: name.toList ++ ((attrsText attrs).toList ++ ['/', '>']) := by
      simp [print]
    rw [hchars, tokens]
    exact hopen.append_silent (hattrs.append_silent (Runs.skip hslash (Runs.single rfl)))
  | element name attrs content, h, k => by
    obtain ⟨s, hs, hopen⟩ := Xml.runs_open k h.1
    obtain ⟨s', hs', hattrs⟩ := Xml.runs_attrs hs h.2.1
    have hend : s'.next '>' = some ([.start ⟨name, attrs⟩], .text (.content 0)) := hs' '>' (by decide)
    obtain ⟨k', hcontent⟩ := runs_printAll content h.2.2 0
    refine ⟨0, ?_⟩
    have hchars : (print (element name attrs content)).toList = '<' :: name.toList ++
        ((attrsText attrs).toList ++ '>' :: ((printAll content).toList ++ ("</" ++ name ++ ">").toList)) := by
      simp [print]
    rw [hchars, tokens]
    exact hopen.append_silent (hattrs.append_silent
      (Runs.cons hend (hcontent.append (Xml.runs_close h.1 k'))))

theorem runs_printAll : ∀ (ms : List Markup) (_ : PrintableIn ok ms) (k : Nat),
    ∃ k', Runs (.text (.content k)) (printAll ms).toList (tokensIn ms) (.text (.content k'))
  | [], _, k => ⟨k, Runs.nil _⟩
  | m :: rest, h, k => by
    obtain ⟨k', hm⟩ := runs_print m h.1 k
    obtain ⟨k'', hrest⟩ := runs_printAll rest h.2 k'
    refine ⟨k'', ?_⟩
    rw [printAll, String.toList_append, tokensIn]
    exact hm.append hrest

end

theorem build_chars (path : List (Xml.Tag × List Item)) (before : List Item) (cs : List Char)
    (ts : List Token) : Xml.build path before (cs.map .char ++ ts) =
      Xml.build path ((cs.map .char).reverse ++ before) ts := by
  induction cs generalizing before with
  | nil => rfl
  | cons c cs ih =>
    rw [List.map_cons, List.cons_append, Xml.build, ih, List.map_cons, List.reverse_cons,
      List.append_assoc]
    rfl

mutual

theorem build_tokens : ∀ (m : Markup) (path : List (Xml.Tag × List Item)) (before : List Item)
    (ts : List Token), Xml.build path before (m.tokens ++ ts) = Xml.build path (m.items.reverse ++ before) ts
  | text s, path, before, ts => build_chars path before s.toList ts
  | verbatim s, path, before, ts => build_chars path before s.toList ts
  | empty name attrs, path, before, ts => rfl
  | element name attrs content, path, before, ts => by
    rw [tokens, List.cons_append, Xml.build, List.append_assoc, build_tokensIn, List.singleton_append,
      Xml.build]
    dsimp only
    rw [if_pos rfl, items, List.append_nil, List.reverse_reverse]
    rfl

theorem build_tokensIn : ∀ (ms : List Markup) (path : List (Xml.Tag × List Item)) (before : List Item)
    (ts : List Token),
    Xml.build path before (tokensIn ms ++ ts) = Xml.build path ((itemsIn ms).reverse ++ before) ts
  | [], path, before, ts => rfl
  | m :: rest, path, before, ts => by
    rw [tokensIn, List.append_assoc, build_tokens, build_tokensIn, itemsIn, List.reverse_append,
      List.append_assoc]

end

mutual

theorem isText_print : ∀ (m : Markup) (_ : m.Printable (isText · = true)), isText (print m) = true
  | text s, h => Xml.isText_escape h
  | verbatim s, h => h.2.2
  | empty name attrs, h => by
    simp only [print, Xml.isText_append, Xml.isText_of_isName h.1, Xml.isText_attrsText h.2]
    decide
  | element name attrs content, h => by
    simp only [print, Xml.isText_append, Xml.isText_of_isName h.1, Xml.isText_attrsText h.2.1,
      isText_printAll content h.2.2]
    decide

theorem isText_printAll : ∀ (ms : List Markup) (_ : PrintableIn (isText · = true) ms),
    isText (printAll ms) = true
  | [], _ => rfl
  | m :: rest, h => by
    rw [printAll, Xml.isText_append, isText_print m h.1, isText_printAll rest h.2]
    rfl

end

theorem isText_document {root : Markup} (h : root.Printable (isText · = true)) :
    isText (document root) = true := by
  have hdeclaration : isText Xml.declaration = true := rfl
  have hdocument : document root = Xml.declaration ++ print root ++ "\n" := rfl
  rw [hdocument, Xml.isText_append, Xml.isText_append, hdeclaration, isText_print root h]
  rfl

theorem toList_document (root : Markup) :
    (document root).toList = Xml.declaration.toList ++ ((print root).toList ++ ['\n']) := by
  have hdocument : document root = Xml.declaration ++ print root ++ "\n" := rfl
  rw [hdocument, String.toList_append, String.toList_append, List.append_assoc]
  simp

theorem read_document {name : String} {attrs : List (String × String)} {content : List Markup}
    (h : (element name attrs content).Printable ok) :
    Xml.read (document (element name attrs content)) =
      some (.element ⟨name, attrs⟩ (itemsIn content)) := by
  obtain ⟨k, hprint⟩ := runs_print _ h 0
  have hend : Runs (.text (.content k)) ['\n'] [.char '\n'] (.text (.content 0)) := Runs.single rfl
  have htokens : (Xml.Scan.text (.content 0)).tokens ((print (element name attrs content)).toList ++ ['\n']) =
      some ((element name attrs content).tokens ++ [.char '\n']) := by
    have hruns := hprint.append hend []
    rw [List.append_nil] at hruns
    simpa [Xml.Scan.tokens, Xml.Scan.mayEnd] using hruns
  have hbuild : Xml.build [] [] ((element name attrs content).tokens ++ [.char '\n']) =
      some [.element ⟨name, attrs⟩ (itemsIn content), .char '\n'] := by
    rw [build_tokens]
    simp [Xml.build, items]
  have hbody : (document (element name attrs content)).toList.dropPrefix? Xml.declaration.toList =
      some ((print (element name attrs content)).toList ++ ['\n']) := by
    rw [List.dropPrefix?_eq_some_iff]
    exact ⟨_, toList_document _, beq_self_eq_true _⟩
  rw [Xml.read, hbody]
  simp only [Option.bind_eq_bind, Option.bind_some, htokens, hbuild]
  rfl

end printable

end MemoryCompiler.Diagram.Markup

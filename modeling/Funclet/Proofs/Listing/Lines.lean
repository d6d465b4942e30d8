import Funclet.Code.Listing
import Funclet.Proofs.Listing.Names
import Funclet.Proofs.Listing.Numbers
import Funclet.Proofs.Machine.Renumbering

/-!
# What the lines of a listing say

* `Inst.line_eq_iff`, `terminatorLine_inj`, `Slot.line_inj` : a line says all about an instruction but the number of
  the function that it calls, and all about a terminator or a slot;
* `Region.lines_eq_iff` : so do the lines of a region;
* `Body.lines_eq_iff` : and those of a body, but for the number of its values;
* `Body.oneLine_lines` : nothing on a line is a line end if no name has one in it.
-/

namespace Funclet

/-! ## Constants and values -/

theorem oneLine_render (x : Float) : OneLine (Decimal.render .plain x) := fun h =>
  absurd (Decimal.mem_render h) (by decide)

/-- Every literal has a text of its own. -/
theorem Constant.render_inj {c d : Constant} (h : c.render = d.render) : c = d := by
  have hmark {x : Float} {s : String} : Decimal.render .plain x ≠ Text.quote s := by
    intro h
    have hmem : '"' ∈ (Decimal.render .plain x).toList := by
      rw [h, Text.toList_quote]
      exact List.mem_cons_self
    exact absurd (Decimal.mem_render hmem) (by decide)
  cases c with
  | number x =>
    cases d with
    | number y => exact congrArg _ (Decimal.render_injective h)
    | text t => exact absurd h hmark
  | text s =>
    cases d with
    | number y => exact absurd h.symm hmark
    | text t => exact congrArg _ (Text.quote_inj h)

theorem Constant.oneLine_render : ∀ c : Constant, OneLine c.render
  | .number x => Funclet.oneLine_render x
  | .text s => Text.oneLine_quote s

def moreValues (vs : List ValueId) : String := if vs = [] then "" else ", " ++ valuesText vs

theorem valuesText_cons (v : ValueId) (vs : List ValueId) :
    valuesText (v :: vs) = "v" ++ (toString v ++ moreValues vs) := by
  cases vs with
  | nil => simp [valuesText, valueText, moreValues]
  | cons w ws =>
    simp only [valuesText, List.map_cons, String.intercalate_cons_cons, moreValues, if_neg (List.cons_ne_nil w ws),
      valueText, String.append_assoc]

theorem moreValues_head (vs : List ValueId) : ∀ c ∈ (moreValues vs).toList.head?, c.isDigit = false := by
  unfold moreValues
  split
  · simp
  · simp

theorem valuesText_ne_empty (v : ValueId) (vs : List ValueId) : valuesText (v :: vs) ≠ "" := by
  intro h
  rw [valuesText_cons] at h
  simpa using congrArg String.toList h

/-- Values can be told apart where there are commas between them. -/
theorem valuesText_inj {vs ws : List ValueId} (h : valuesText vs = valuesText ws) : vs = ws := by
  induction vs generalizing ws with
  | nil =>
    cases ws with
    | nil => rfl
    | cons w ws => exact absurd h.symm (valuesText_ne_empty w ws)
  | cons v vs ih =>
    cases ws with
    | nil => exact absurd h (valuesText_ne_empty v vs)
    | cons w ws =>
      rw [valuesText_cons, valuesText_cons, String.append_right_inj] at h
      obtain ⟨rfl, hmore⟩ := toString_append_inj (moreValues_head vs) (moreValues_head ws) h
      congr 1
      unfold moreValues at hmore
      split at hmore <;> split at hmore
      · simp_all
      · simpa using congrArg String.toList hmore
      · simpa using congrArg String.toList hmore
      · exact ih ((String.append_right_inj _).1 hmore)

theorem mem_valuesText {vs : List ValueId} {c : Char} (h : c ∈ (valuesText vs).toList) :
    c.isDigit = true ∨ c ∈ ['v', ',', ' '] := by
  induction vs with
  | nil => cases h
  | cons v vs ih =>
    rw [valuesText_cons, String.toList_append, String.toList_append] at h
    rcases List.mem_append.1 h with h | h
    · exact .inr (List.mem_singleton.1 h ▸ by decide)
    · rcases List.mem_append.1 h with h | h
      · exact .inl (isDigit_of_mem_toString h)
      · unfold moreValues at h
        split at h
        · cases h
        · rw [String.toList_append] at h
          rcases List.mem_append.1 h with h | h
          · have hcomma : ", ".toList ⊆ ['v', ',', ' '] := by simp
            exact .inr (hcomma h)
          · exact ih h

theorem oneLine_valueText (v : ValueId) : OneLine (valueText v) :=
  OneLine.append (by decide) (oneLine_toString v)

theorem oneLine_valuesText (vs : List ValueId) : OneLine (valuesText vs) := fun h =>
  absurd (mem_valuesText h) (by decide)

/-! ## Instructions -/

theorem Primitive.mnemonic_inj {a b : Primitive} (h : a.mnemonic = b.mnemonic) : a = b := by
  cases a <;> cases b <;> first | rfl | exact absurd h (by decide)

namespace Inst

def keyword : Inst → String
  | .const _ _ => "const"
  | .param _ _ => "param"
  | .load _ _ => "load"
  | .store _ _ => "store"
  | .primitive _ op _ _ => op.mnemonic
  | .call _ _ _ => "call"
  | .print _ => "print"

def operands (nameOf : FunctionId → String) : Inst → String
  | .const _ c => c.render
  | .param _ index => toString index
  | .load _ slot => "s" ++ toString slot
  | .store slot v => "s" ++ (toString slot ++ (", v" ++ toString v))
  | .primitive _ _ lhs rhs => "v" ++ (toString lhs ++ (", v" ++ toString rhs))
  | .call _ callee args => "@" ++ (nameOf callee ++ "(" ++ valuesText args ++ ")")
  | .print items => valuesText items

def target (i : Inst) : String :=
  match i.dest? with
  | some v => "v" ++ (toString v ++ " = ")
  | none => ""

variable {p q : FunctionId → String} {i j : Inst}

theorem line_eq_parts (p : FunctionId → String) (i : Inst) :
    i.line p = "    " ++ (i.target ++ (i.keyword ++ (" " ++ i.operands p))) := by
  cases i <;> simp [← String.toList_inj, line, target, dest?, keyword, operands, valueText]

/-- Words and kinds of instructions: a word that stands for no other kind is that of an operation. -/
def kindOf (word : String) : Nat :=
  if word = "const" then 0
  else if word = "param" then 1
  else if word = "load" then 2
  else if word = "store" then 3
  else if word = "call" then 5
  else if word = "print" then 6
  else 4

theorem kindOf_keyword (i : Inst) : kindOf i.keyword = i.ctorIdx := by
  cases i with
  | primitive _ op _ _ => cases op <;> rfl
  | _ => rfl

theorem keyword_plain (i : Inst) : ∀ c ∈ i.keyword.toList, c ≠ ' ' ∧ c ≠ '\n' := by
  cases i with
  | primitive _ op _ _ => cases op <;> simp [keyword, Primitive.mnemonic]
  | _ => simp [keyword]

/-- The word ends at the first blank. -/
theorem keyword_append_inj {s t : String} (h : i.keyword ++ (" " ++ s) = j.keyword ++ (" " ++ t)) :
    i.keyword = j.keyword ∧ s = t := by
  obtain ⟨hk, hst⟩ := text_inj_of_head (· ≠ ' ') (fun c hc => (i.keyword_plain c hc).1)
    (fun c hc => (j.keyword_plain c hc).1) (by simp) (by simp) h
  exact ⟨hk, (String.append_right_inj " ").1 hst⟩

theorem keyword_of_dest? (h : i.dest? = none) : i.keyword = "store" ∨ i.keyword = "print" := by
  cases i with
  | store _ _ => exact .inl rfl
  | print _ => exact .inr rfl
  | _ => cases h

/-- A value and a word for what is done without one cannot be confused. -/
theorem value_ne_keyword {s t : String} (h : j.dest? = none) : "v" ++ s ≠ j.keyword ++ t := by
  intro heq
  have hlist := congrArg String.toList heq
  rcases keyword_of_dest? h with hk | hk
  · simp [hk] at hlist
  · simp [hk] at hlist

/-- The parts of a line can be told apart. -/
theorem parts_of_line (h : i.line p = j.line q) :
    i.dest? = j.dest? ∧ i.keyword = j.keyword ∧ i.operands p = j.operands q := by
  rw [line_eq_parts, line_eq_parts, String.append_right_inj] at h
  unfold target at h
  cases hi : i.dest? with
  | some v =>
    cases hj : j.dest? with
    | some w =>
      simp only [hi, hj, String.append_assoc, String.append_right_inj] at h
      obtain ⟨rfl, hrest⟩ := toString_append_inj (by simp) (by simp) h
      exact ⟨rfl, keyword_append_inj ((String.append_right_inj _).1 hrest)⟩
    | none =>
      simp only [hi, hj, String.append_assoc, String.empty_append] at h
      exact absurd h (value_ne_keyword hj)
  | none =>
    cases hj : j.dest? with
    | some w =>
      simp only [hi, hj, String.append_assoc, String.empty_append] at h
      exact absurd h.symm (value_ne_keyword hi)
    | none =>
      simp only [hi, hj, String.empty_append] at h
      exact ⟨rfl, keyword_append_inj h⟩

theorem pair_inj {a b c d : Nat} (h : toString a ++ (", v" ++ toString b) = toString c ++ (", v" ++ toString d)) :
    a = c ∧ b = d := by
  obtain ⟨hac, hbd⟩ := toString_append_inj (by simp) (by simp) h
  exact ⟨hac, toString_inj ((String.append_right_inj _).1 hbd)⟩

/-- In a name there may be anything, but behind it there is one bracket only. -/
theorem callee_inj {f g : String} {vs ws : List ValueId}
    (h : f ++ "(" ++ valuesText vs ++ ")" = g ++ "(" ++ valuesText ws ++ ")") : f = g ∧ vs = ws := by
  have hplain {us : List ValueId} : ∀ c ∈ (valuesText us).toList, c ≠ '(' := by
    rintro c hc rfl
    exact absurd (mem_valuesText hc) (by decide)
  have hfront := (String.append_left_inj _).1 h
  obtain ⟨hfg, hvs⟩ := text_inj_of_last (· ≠ '(') hplain hplain (by simp) (by simp) hfront
  exact ⟨(String.append_left_inj _).1 hfg, valuesText_inj hvs⟩

theorem alike_of_parts (hd : i.dest? = j.dest?) (hk : i.keyword = j.keyword) (ho : i.operands p = j.operands q) :
    i.Alike (fun f g => p f = q g) j := by
  have hkind : i.ctorIdx = j.ctorIdx := by rw [← kindOf_keyword, ← kindOf_keyword, hk]
  cases i with
  | const d c =>
    cases j with
    | const e c' =>
      cases hd
      cases Constant.render_inj ho
      exact .same _ (by simp)
    | _ => cases hkind
  | param d n =>
    cases j with
    | param e m =>
      cases hd
      cases toString_inj ho
      exact .same _ (by simp)
    | _ => cases hkind
  | load d n =>
    cases j with
    | load e m =>
      cases hd
      cases toString_inj ((String.append_right_inj _).1 ho)
      exact .same _ (by simp)
    | _ => cases hkind
  | store n v =>
    cases j with
    | store m w =>
      obtain ⟨rfl, rfl⟩ := pair_inj ((String.append_right_inj _).1 ho)
      exact .same _ (by simp)
    | _ => cases hkind
  | primitive d op l r =>
    cases j with
    | primitive e op' l' r' =>
      cases hd
      cases Primitive.mnemonic_inj hk
      obtain ⟨rfl, rfl⟩ := pair_inj ((String.append_right_inj _).1 ho)
      exact .same _ (by simp)
    | _ => cases hkind
  | call d f vs =>
    cases j with
    | call e g ws =>
      cases hd
      obtain ⟨hname, rfl⟩ := callee_inj ((String.append_right_inj _).1 ho)
      exact .call _ _ hname
    | _ => cases hkind
  | print vs =>
    cases j with
    | print ws =>
      cases valuesText_inj ho
      exact .same _ (by simp)
    | _ => cases hkind

/-- A line says all about an instruction but the number of the function that it calls. -/
theorem line_eq_iff : i.line p = j.line q ↔ i.Alike (fun f g => p f = q g) j := by
  constructor
  · intro h
    obtain ⟨hd, hk, ho⟩ := parts_of_line h
    exact alike_of_parts hd hk ho
  · rintro (⟨i, hi⟩ | ⟨d, vs, hR⟩)
    · cases i with
      | call d f vs => exact absurd rfl (hi d f vs)
      | _ => rfl
    · simp only [line, hR]

theorem oneLine_operands (hp : ∀ f, OneLine (p f)) : ∀ i : Inst, OneLine (i.operands p)
  | .const _ c => c.oneLine_render
  | .param _ index => oneLine_toString index
  | .load _ slot => OneLine.append (by decide) (oneLine_toString slot)
  | .store slot v => .append (by decide) (.append (oneLine_toString slot) (.append (by decide) (oneLine_toString v)))
  | .primitive _ _ lhs rhs =>
    .append (by decide) (.append (oneLine_toString lhs) (.append (by decide) (oneLine_toString rhs)))
  | .call _ callee args =>
    .append (by decide) (.append (.append (.append (hp callee) (by decide)) (oneLine_valuesText args)) (by decide))
  | .print items => oneLine_valuesText items

theorem oneLine_line (hp : ∀ f, OneLine (p f)) (i : Inst) : OneLine (i.line p) := by
  have htarget : OneLine i.target := by
    unfold target
    split
    · exact .append (by decide) (.append (oneLine_toString _) (by decide))
    · decide
  have hkeyword : OneLine i.keyword := fun h => (i.keyword_plain _ h).2 rfl
  rw [line_eq_parts]
  exact .append (by decide) (.append htarget (.append hkeyword (.append (by decide) (oneLine_operands hp i))))

end Inst

/-! ## Terminators, slots and headings -/

/-- A line says all about a terminator. -/
theorem terminatorLine_inj {t u : Option Terminator} (h : terminatorLine t = terminatorLine u) : t = u := by
  have hlist := congrArg String.toList h
  rcases t with _ | (a | ⟨v, a, b⟩ | v) <;> rcases u with _ | (a' | ⟨v', a', b'⟩ | v')
  case some.branch.some.branch =>
    rw [terminatorLine, terminatorLine, String.append_right_inj] at h
    rw [toString_inj h]
  case some.branchIf.some.branchIf =>
    simp only [terminatorLine, valueText, String.append_assoc, String.append_right_inj] at h
    obtain ⟨rfl, hyes⟩ := toString_append_inj (by simp) (by simp) h
    obtain ⟨rfl, hno⟩ := toString_append_inj (by simp) (by simp) ((String.append_right_inj ", r").1 hyes)
    rw [toString_inj ((String.append_right_inj ", r").1 hno)]
  case some.ret.some.ret =>
    simp only [terminatorLine, valueText, String.append_right_inj] at h
    rw [toString_inj h]
  case none.none => rfl
  all_goals simp [terminatorLine, valueText] at hlist

theorem oneLine_terminatorLine (t : Option Terminator) : OneLine (terminatorLine t) := by
  rcases t with _ | (a | ⟨v, a, b⟩ | v)
  · decide
  · exact .append (by decide) (oneLine_toString a)
  · exact .append (.append (.append (.append (.append (by decide) (oneLine_valueText v)) (by decide))
      (oneLine_toString a)) (by decide)) (oneLine_toString b)
  · exact .append (by decide) (oneLine_valueText v)

/-- A line says all about a slot. -/
theorem Slot.line_inj {s t : Slot} {i j : Nat} (h : s.line i = t.line j) : s = t := by
  obtain ⟨hfront, hregion⟩ := append_toString_inj (by decide) h
  simp only [String.append_assoc, String.append_right_inj] at hfront
  obtain ⟨-, hname⟩ := toString_append_inj (by simp) (by simp) hfront
  obtain ⟨name, region⟩ := s
  obtain ⟨name', region'⟩ := t
  cases hregion
  cases (String.append_right_inj _).1 hname
  rfl

theorem Slot.oneLine_line {s : Slot} (hs : OneLine s.name) (i : Nat) : OneLine (s.line i) :=
  .append (.append (.append (.append (.append (by decide) (oneLine_toString i)) (by decide)) hs) (by decide))
    (oneLine_toString s.region)

/-- The name of a function ends at the last bracket. -/
theorem signature_inj {lead tail f g : String} {m n : Nat}
    (h : lead ++ f ++ "(" ++ toString m ++ tail = lead ++ g ++ "(" ++ toString n ++ tail) : f = g ∧ m = n := by
  obtain ⟨hfront, hmn⟩ := append_toString_inj (by decide) ((String.append_left_inj _).1 h)
  exact ⟨(String.append_right_inj _).1 hfront, hmn⟩

/-! ## Lists of lines -/

section Items

variable {α β γ : Type} {R : α → β → Prop}

theorem map_eq_map_iff {f : α → γ} {g : β → γ} (hR : ∀ a b, f a = g b ↔ R a b) {x : Option α} {y : Option β} :
    x.map f = y.map g ↔ Option.Rel R x y := by
  rw [optionRel_iff]
  cases x <;> cases y <;> simp [hR]

theorem toList_map_eq_iff {f : α → γ} {g : β → γ} (hR : ∀ a b, f a = g b ↔ R a b) (xs : Array α) (ys : Array β) :
    xs.toList.map f = ys.toList.map g ↔ ∀ k : Nat, Option.Rel R xs[k]? ys[k]? := by
  simp only [List.ext_getElem?_iff, List.getElem?_map, Array.getElem?_toList, map_eq_map_iff hR]

theorem toList_mapIdx_eq_iff {f : Nat → α → γ} {g : Nat → β → γ} (hR : ∀ k a b, f k a = g k b ↔ R a b)
    (xs : Array α) (ys : Array β) :
    xs.toList.mapIdx f = ys.toList.mapIdx g ↔ ∀ k : Nat, Option.Rel R xs[k]? ys[k]? := by
  simp only [List.ext_getElem?_iff, List.getElem?_mapIdx, Array.getElem?_toList, map_eq_map_iff (hR _)]

end Items

variable {p q : FunctionId → String}

/-! ## Regions -/

namespace Region

def heading (g : Region) (index : Nat) : String := "  r" ++ toString index ++ "." ++ g.label ++ ":"

theorem lines_eq (p : FunctionId → String) (g : Region) (index : Nat) :
    g.lines p index = g.heading index :: (g.insts.toList.map (Inst.line p) ++ [terminatorLine g.terminator]) := rfl

/-- The lines of a region say all about it but the numbers of functions. -/
theorem lines_eq_iff {g h : Region} {index : Nat} :
    g.lines p index = h.lines q index ↔ g.Alike (fun f g => p f = q g) h := by
  rw [lines_eq, lines_eq, List.cons.injEq]
  constructor
  · rintro ⟨hhead, hrest⟩
    obtain ⟨hinsts, hterm⟩ := List.append_inj' hrest rfl
    exact {
      label := (String.append_right_inj _).1 ((String.append_left_inj _).1 hhead)
      insts := (toList_map_eq_iff (fun _ _ => Inst.line_eq_iff) _ _).1 hinsts
      terminator := terminatorLine_inj (List.singleton_inj.1 hterm) }
  · intro h
    rw [heading, heading, h.label, h.terminator, (toList_map_eq_iff (fun _ _ => Inst.line_eq_iff) _ _).2 h.insts]
    exact ⟨rfl, rfl⟩

/-- Behind its first line, the lines of a region are set off by blanks. -/
theorem blank_lines {g : Region} {l : String}
    (hl : l ∈ g.insts.toList.map (Inst.line p) ++ [terminatorLine g.terminator]) :
    l.toList.head? = some ' ' ∧ l.toList[2]? = some ' ' := by
  rcases List.mem_append.1 hl with hl | hl
  · obtain ⟨i, -, rfl⟩ := List.mem_map.1 hl
    simp [Inst.line_eq_parts]
  · rw [List.mem_singleton.1 hl]
    rcases g.terminator with _ | (a | ⟨v, a, b⟩ | v) <;> simp [terminatorLine]

theorem headed_lines (p : FunctionId → String) (g : Region) (index : Nat) :
    Headed (·.toList[2]? = some 'r') (g.lines p index) := by
  refine ⟨_, _, lines_eq p g index, by simp [heading], fun l hl => ?_⟩
  simp [(blank_lines hl).2]

theorem head_lines (p : FunctionId → String) (g : Region) (index : Nat) :
    ∀ l ∈ g.lines p index, l.toList.head? = some ' ' := by
  intro l hl
  rcases List.mem_cons.1 hl with rfl | hl
  · simp
  · exact (blank_lines hl).1

theorem oneLine_lines (hp : ∀ f, OneLine (p f)) {g : Region} (hg : OneLine g.label) (index : Nat) :
    ∀ l ∈ g.lines p index, OneLine l := by
  intro l hl
  rw [lines_eq] at hl
  rcases List.mem_cons.1 hl with rfl | hl
  · exact .append (.append (.append (.append (by decide) (oneLine_toString index)) (by decide)) hg) (by decide)
  rcases List.mem_append.1 hl with hl | hl
  · obtain ⟨i, -, rfl⟩ := List.mem_map.1 hl
    exact i.oneLine_line hp
  · rw [List.mem_singleton.1 hl]
    exact oneLine_terminatorLine _

end Region

/-! ## Bodies -/

namespace Body

def heading (b : Body) : String := "fn @" ++ b.name ++ "(" ++ toString b.params ++ ") \x7b"

def regionLines (p : FunctionId → String) (b : Body) : List (List String) :=
  b.regions.toList.mapIdx fun i g => g.lines p i

theorem lines_eq (p : FunctionId → String) (b : Body) :
    b.lines p = b.heading :: (b.slots.toList.mapIdx (fun i s => s.line i) ++ (b.regionLines p).flatten ++ ["\x7d"]) :=
  rfl

theorem mem_regionLines {b : Body} {block : List String} (h : block ∈ b.regionLines p) :
    ∃ g ∈ b.regions, ∃ i, block = g.lines p i := by
  obtain ⟨i, hi, rfl⟩ := List.mem_mapIdx.1 h
  exact ⟨_, Array.mem_def.2 (List.getElem_mem hi), i, rfl⟩

theorem headed_regionLines (b : Body) : ∀ block ∈ b.regionLines p, Headed (·.toList[2]? = some 'r') block := by
  intro block hb
  obtain ⟨g, -, i, rfl⟩ := mem_regionLines hb
  exact g.headed_lines p i

theorem mem_slotLines {b : Body} {l : String} (h : l ∈ b.slots.toList.mapIdx fun i s => s.line i) :
    ∃ s ∈ b.slots, ∃ i, l = s.line i := by
  obtain ⟨i, hi, rfl⟩ := List.mem_mapIdx.1 h
  exact ⟨_, Array.mem_def.2 (List.getElem_mem hi), i, rfl⟩

/-- Where the slots end and the regions begin. The third character of a line tells slots and regions apart, and both
from code. -/
theorem cut_lines {b c : Body} (h : b.lines p = c.lines q) :
    b.heading = c.heading ∧ b.slots.toList.mapIdx (fun i s => s.line i) = c.slots.toList.mapIdx (fun i s => s.line i) ∧
      b.regionLines p = c.regionLines q := by
  rw [lines_eq, lines_eq] at h
  obtain ⟨hhead, htail⟩ := List.cons.inj h
  have hslot (b : Body) : ∀ l ∈ b.slots.toList.mapIdx (fun i s => s.line i), l.toList[2]? = some 's' := by
    intro l hl
    obtain ⟨s, -, i, rfl⟩ := mem_slotLines hl
    simp [Slot.line]
  have hregion {p : FunctionId → String} (b : Body) :
      ∀ l ∈ (b.regionLines p).flatten.head?, ¬ l.toList[2]? = some 's' := by
    intro l hl hs
    rw [Headed.head_flatten b.headed_regionLines l hl] at hs
    cases hs
  obtain ⟨hslots, hregions⟩ := append_eq_append_of_head (·.toList[2]? = some 's') (hslot b) (hslot c) (hregion b)
    (hregion c) (List.append_cancel_right htail)
  exact ⟨hhead, hslots, flatten_inj b.headed_regionLines c.headed_regionLines hregions⟩

/-- The lines of a body say all about it but the numbers of functions, and of its values. -/
theorem lines_eq_iff {b c : Body} :
    b.lines p = c.lines q ↔ b.name = c.name ∧ b.params = c.params ∧ b.slots = c.slots ∧
      ∀ k : Nat, Option.Rel (Region.Alike fun f g => p f = q g) b.regions[k]? c.regions[k]? := by
  have hregions := toList_mapIdx_eq_iff (f := fun i g => g.lines p i) (g := fun i g => g.lines q i)
    (fun _ _ _ => Region.lines_eq_iff) b.regions c.regions
  constructor
  · intro h
    obtain ⟨hhead, hslots, hblocks⟩ := cut_lines h
    obtain ⟨hname, hparams⟩ := signature_inj hhead
    refine ⟨hname, hparams, ?_, hregions.1 hblocks⟩
    rw [toList_mapIdx_eq_iff (R := fun s t : Slot => s = t)
      (fun i s t => ⟨Slot.line_inj, congrArg (Slot.line · i)⟩)] at hslots
    refine Array.ext_getElem? fun k => ?_
    rcases optionRel_iff.1 (hslots k) with ⟨hb, hc⟩ | ⟨s, t, hb, hc, rfl⟩
    · rw [hb, hc]
    · rw [hb, hc]
  · rintro ⟨hname, hparams, hslots, hrel⟩
    rw [lines_eq, lines_eq, heading, heading, hname, hparams, hslots, regionLines, hregions.2 hrel]
    rfl

theorem headed_lines (p : FunctionId → String) (b : Body) : Headed (·.toList.head? = some 'f') (b.lines p) := by
  refine ⟨_, _, lines_eq p b, by simp [heading], fun l hl => ?_⟩
  rcases List.mem_append.1 hl with hl | hl
  · rcases List.mem_append.1 hl with hl | hl
    · obtain ⟨s, -, i, rfl⟩ := mem_slotLines hl
      simp [Slot.line]
    · obtain ⟨block, hblock, hl⟩ := List.mem_flatten.1 hl
      obtain ⟨g, -, i, rfl⟩ := mem_regionLines hblock
      simp [g.head_lines p i l hl]
  · rw [List.mem_singleton.1 hl]
    decide

/-- Where no name has a line end in it, no line of a body has. -/
theorem oneLine_lines (hp : ∀ f, OneLine (p f)) {b : Body} (hb : b.Named OneLine) : ∀ l ∈ b.lines p, OneLine l := by
  intro l hl
  rw [lines_eq] at hl
  rcases List.mem_cons.1 hl with rfl | hl
  · exact .append (.append (.append (.append (by decide) hb.name) (by decide)) (oneLine_toString _)) (by decide)
  rcases List.mem_append.1 hl with hl | hl
  · rcases List.mem_append.1 hl with hl | hl
    · obtain ⟨s, hs, i, rfl⟩ := mem_slotLines hl
      exact Slot.oneLine_line (hb.slots s hs) i
    · obtain ⟨block, hblock, hl⟩ := List.mem_flatten.1 hl
      obtain ⟨g, hg, i, rfl⟩ := mem_regionLines hblock
      exact g.oneLine_lines hp (hb.regions g hg) i l hl
  · rw [List.mem_singleton.1 hl]
    decide

end Body

end Funclet

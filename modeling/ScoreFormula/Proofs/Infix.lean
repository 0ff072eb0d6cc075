import ScoreFormula.Expr.Infix
import ScoreFormula.Proofs.Decimal.Figures
import ScoreFormula.Proofs.Substitution
import ScoreFormula.Proofs.WellFormed

/-!
# Infix text determines its formula

Infix text has no spaces around operators and no precedence, only groups.  It is read off from
the left: the first character tells a number, a word, a negation or a group, and a formula
ends where no name, number or group goes on.  So a formula can be told from a text that it
stands in front of (`infixText_append_injective`), by induction on the formula.

That equal texts are of one form (`form_eq`) takes more than their first characters for a
group.  What stands first in it is an operand, or a word that could be the name of a variable
as well.  It is no variable if a `)` or a space follows, since no symbol between operands
begins so.  This fails for the operators between operands that are words themselves, and for
names that are no words; `Plain` leaves them out.
-/

namespace ScoreFormula

/-- The letters, digits and underscores of ASCII. -/
def isNameChar (c : Char) : Bool := c.isAlphanum || c == '_'

/-- An ASCII letter, and then any of letters, digits and underscores. -/
def isPlainName : Text → Bool
  | [] => false
  | c :: w => c.isAlpha && w.all isNameChar

namespace Operator

/-- The operators whose symbols stand between operands although they are words. -/
def isWordBetween (operator : Operator) : Bool :=
  operator == .max || operator == .min || operator == .randIn

end Operator

namespace Expr

mutual

/-- The names are plain, the constants are finite, and no operator between operands is a
word. -/
def Plain : Expr → Prop
  | constant value => value.isFinite = true
  | var cell => isPlainName cell.name = true
  | operation operator operands => operator.isWordBetween = false ∧ AllPlain operands

def AllPlain : List Expr → Prop
  | [] => True
  | e :: rest => e.Plain ∧ AllPlain rest

end

/-- The plain and well-formed trees by the form that their texts have. -/
inductive Shaped : Expr → Prop
  | constant {value : Double} : value.isFinite = true → Shaped (constant value)
  | var {cell : Cell} : isPlainName cell.name = true → Shaped (var cell)
  | nullary : Shaped (operation .rand [])
  | unary {operator : Operator} {a : Expr} :
    operator.arity = 1 → Shaped a → Shaped (operation operator [a])
  | binary {operator : Operator} {a b : Expr} :
    operator.arity = 2 → operator.isWordBetween = false → Shaped a → Shaped b →
      Shaped (operation operator [a, b])
  | ternary {operator : Operator} {a b c : Expr} :
    operator.arity = 3 → Shaped a → Shaped b → Shaped c → Shaped (operation operator [a, b, c])

end Expr

/-! ## Symbols -/

namespace Operator

theorem eq_rand_of_arity {operator : Operator} (h : operator.arity = 0) : operator = .rand := by
  cases operator <;> first | rfl | exact absurd h (by decide)

theorem arity_le (operator : Operator) : operator.arity ≤ 3 := by
  cases operator <;> decide

/-- A symbol before one operand is a word, but for that of `not`. -/
theorem isPlainName_of_arity_one {operator : Operator} (h : operator.arity = 1)
    (hn : operator ≠ .not) : isPlainName operator.symbol = true := by
  cases operator <;> first | rfl | exact absurd h (by decide) | exact absurd rfl hn

theorem isPlainName_of_arity_three {operator : Operator} (h : operator.arity = 3) :
    isPlainName operator.symbol = true := by
  cases operator <;> first | rfl | exact absurd h (by decide)

/-- The symbol between operands with which a text begins. -/
def leading : Text → Text
  | c :: d :: _ => if d = '=' ∨ d = '*' ∨ d = '|' ∨ d = '&' then [c, d] else [c]
  | t => t

/-- A symbol between operands is one character, or one and an `=`, `*`, `|` or `&`.  So it can
be told from a text that it stands in front of, if no operand begins with one of these. -/
theorem leading_symbol {operator : Operator} (ha : operator.arity = 2)
    (hw : operator.isWordBetween = false) {c : Char}
    (hc : ¬(c = '=' ∨ c = '*' ∨ c = '|' ∨ c = '&')) (t : Text) :
    leading (operator.symbol ++ c :: t) = operator.symbol := by
  cases operator <;>
    first
    | exact absurd ha (by decide)
    | exact absurd hw (by decide)
    | rfl
    | exact if_neg hc

/-- The characters with which symbols between operands begin. -/
theorem exists_symbol_eq_cons {operator : Operator} (ha : operator.arity = 2)
    (hw : operator.isWordBetween = false) :
    ∃ c w, operator.symbol = c :: w ∧
      (isNameChar c = false ∧ c ≠ '.' ∧ c ≠ '(') ∧ c ≠ ')' ∧ c ≠ ' ' := by
  cases operator <;>
    first
    | exact absurd ha (by decide)
    | exact absurd hw (by decide)
    | exact ⟨_, _, rfl, by decide⟩

end Operator

/-! ## Beginnings and ends -/

/-- What the first character of infix text shows. -/
inductive Opening
  | number | word | bang | group

def Opening.admits (c : Char) : Opening → Bool
  | number => c.isDigit || c == '-'
  | word => c.isAlpha
  | bang => c == '!'
  | group => c == '('

/-- The kinds of opening have no character in common. -/
theorem Opening.eq_of_admits {c : Char} {o o' : Opening} (h : o.admits c = true)
    (h' : o'.admits c = true) : o = o' := by
  have halpha : c.isAlpha = true → number.admits c = false := by
    intro ha
    have hm : (c == '-') = false := by
      rw [beq_eq_false_iff_ne]
      rintro rfl
      exact absurd ha (by decide)
    rw [admits, isDigit_eq_false_of_isAlpha ha, hm]
    rfl
  cases o <;> cases o' <;> simp_all [admits]

namespace Expr

def opening : Expr → Opening
  | constant _ => .number
  | var _ => .word
  | operation operator [_] => if operator = .not then .bang else .word
  | operation _ _ => .group

/-- Infix text that stands before the text ends where the text begins. -/
def Closes (t : Text) : Prop := ∀ c ∈ t.head?, isNameChar c = false ∧ c ≠ '.' ∧ c ≠ '('

theorem infixText_nullary_append (operator : Operator) (r : Text) :
    (operation operator []).infixText ++ r = '(' :: (operator.symbol ++ ')' :: r) := by
  simp [infixText, infixTexts, Operator.around]

theorem infixText_unary_append (operator : Operator) (a : Expr) (r : Text) :
    (operation operator [a]).infixText ++ r =
      operator.symbol ++ '(' :: (a.infixText ++ ')' :: r) := by
  simp [infixText, infixTexts, Operator.around]

theorem infixText_binary_append (operator : Operator) (a b : Expr) (r : Text) :
    (operation operator [a, b]).infixText ++ r =
      '(' :: (a.infixText ++ (operator.symbol ++ (b.infixText ++ ')' :: r))) := by
  simp [infixText, infixTexts, Operator.around]

theorem infixText_ternary_append (operator : Operator) (a b c : Expr) (r : Text) :
    (operation operator [a, b, c]).infixText ++ r =
      '(' :: (operator.symbol ++
        ' ' :: (a.infixText ++ ' ' :: (b.infixText ++ ' ' :: (c.infixText ++ ')' :: r)))) := by
  simp [infixText, infixTexts, Operator.around]

theorem exists_cons_of_isPlainName {name : Text} (h : isPlainName name = true) :
    ∃ c w, name = c :: w ∧ c.isAlpha = true ∧ ∀ d ∈ c :: w, isNameChar d = true := by
  cases name with
  | nil => cases h
  | cons c w =>
    rw [isPlainName, Bool.and_eq_true, List.all_eq_true] at h
    refine ⟨c, w, rfl, h.1, ?_⟩
    intro d hd
    rcases List.mem_cons.mp hd with rfl | hd
    · simp [isNameChar, Char.isAlphanum, h.1]
    · exact h.2 d hd

theorem Shaped.exists_infixText_eq_cons {e : Expr} (h : Shaped e) :
    ∃ c t, e.infixText = c :: t ∧ e.opening.admits c = true := by
  cases h with
  | constant hx =>
    obtain ⟨c, t, ht, hc⟩ := Layout.exists_write_eq_cons hx
    refine ⟨c, t, ht, ?_⟩
    simpa [opening, Opening.admits] using hc
  | @var cell hn =>
    obtain ⟨c, w, hw, hc, -⟩ := exists_cons_of_isPlainName hn
    exact ⟨c, w, hw, hc⟩
  | nullary => exact ⟨_, _, rfl, rfl⟩
  | @unary operator a ha _ =>
    by_cases hn : operator = .not
    · subst hn
      exact ⟨_, _, rfl, rfl⟩
    · obtain ⟨c, w, hw, hc, -⟩ :=
        exists_cons_of_isPlainName (operator.isPlainName_of_arity_one ha hn)
      have ht := infixText_unary_append operator a []
      rw [List.append_nil, hw] at ht
      refine ⟨c, _, ht, ?_⟩
      rw [opening, if_neg hn]
      exact hc
  | binary => exact ⟨_, _, rfl, rfl⟩
  | ternary => exact ⟨_, _, rfl, rfl⟩

/-- Equal texts begin alike. -/
theorem opening_eq {e e' : Expr} (h : Shaped e) (h' : Shaped e') {r r' : Text}
    (ht : e.infixText ++ r = e'.infixText ++ r') : e.opening = e'.opening := by
  obtain ⟨c, t, hc, ho⟩ := h.exists_infixText_eq_cons
  obtain ⟨c', t', hc', ho'⟩ := h'.exists_infixText_eq_cons
  rw [hc, hc'] at ht
  rw [← (List.cons.inj ht).1] at ho'
  exact Opening.eq_of_admits ho ho'

theorem Closes.ends {t : Text} (h : Closes t) : Figures.Ends t := by
  intro c hc
  obtain ⟨hn, hp, -⟩ := h c hc
  refine ⟨?_, hp, ?_⟩
  · cases hd : c.isDigit with
    | false => rfl
    | true => simp [isNameChar, Char.isAlphanum, hd] at hn
  · rintro rfl
    exact absurd hn (by decide)

theorem closes_cons {c : Char} (h : isNameChar c = false ∧ c ≠ '.' ∧ c ≠ '(') (t : Text) :
    Closes (c :: t) := by
  intro d hd
  cases hd
  exact h

theorem closes_nil : Closes [] := fun _ hc => nomatch hc

/-- Only a variable begins with a name behind which nothing goes on. -/
theorem eq_var_of_name_append {name : Text} (hn : isPlainName name = true) {e : Expr}
    (h : Shaped e) {r r' : Text} (hr : Closes r) (hr' : Closes r')
    (ht : name ++ r = e.infixText ++ r') :
    (∃ cell, e = var cell ∧ cell.name = name) ∧ r = r' := by
  have hv : Shaped (var ⟨name, 0⟩) := .var hn
  have hv' : (var ⟨name, 0⟩).infixText ++ r = e.infixText ++ r' := ht
  have ho := opening_eq hv h hv'
  obtain ⟨c, w, rfl, hc, hall⟩ := exists_cons_of_isPlainName hn
  cases h with
  | constant => cases ho
  | @var cell hn' =>
    obtain ⟨c', w', hname, -, hall'⟩ := exists_cons_of_isPlainName hn'
    rw [infixText, hname] at ht
    obtain ⟨hw, hrest⟩ := Text.eq_of_run hall hall' (fun d hd => (hr d hd).1)
      (fun d hd => (hr' d hd).1) ht
    exact ⟨⟨cell, rfl, hname.trans hw.symm⟩, hrest⟩
  | nullary => cases ho
  | @unary operator a ha _ =>
    by_cases hnot : operator = .not
    · rw [opening, opening, if_pos hnot] at ho
      cases ho
    · obtain ⟨c', w', hsymbol, -, hall'⟩ :=
        exists_cons_of_isPlainName (operator.isPlainName_of_arity_one ha hnot)
      rw [infixText_unary_append, hsymbol] at ht
      have hopen : ∀ t : Text, ∀ d ∈ ('(' :: t).head?, isNameChar d = false := by
        intro t d hd
        cases hd
        decide
      obtain ⟨-, hrest⟩ := Text.eq_of_run hall hall' (fun d hd => (hr d hd).1) (hopen _) ht
      rw [hrest] at hr
      exact absurd rfl (hr '(' rfl).2.2
  | binary => cases ho
  | ternary => cases ho

theorem closes_close (t : Text) : Closes (')' :: t) := closes_cons (by decide) t

theorem closes_space (t : Text) : Closes (' ' :: t) := closes_cons (by decide) t

theorem closes_symbol {operator : Operator} (ha : operator.arity = 2)
    (hw : operator.isWordBetween = false) (t : Text) : Closes (operator.symbol ++ t) := by
  obtain ⟨c, w, hsymbol, hc, -⟩ := Operator.exists_symbol_eq_cons ha hw
  rw [hsymbol]
  exact closes_cons hc (w ++ t)

/-- A symbol between operands is settled by what it and the second operand begin with. -/
theorem leading_symbol_append {operator : Operator} (ha : operator.arity = 2)
    (hw : operator.isWordBetween = false) {b : Expr} (h : Shaped b) (t : Text) :
    Operator.leading (operator.symbol ++ (b.infixText ++ t)) = operator.symbol := by
  obtain ⟨c, u, hc, ho⟩ := h.exists_infixText_eq_cons
  rw [hc]
  refine Operator.leading_symbol ha hw ?_ (u ++ t)
  generalize b.opening = o at ho
  rintro (rfl | rfl | rfl | rfl) <;> cases o <;> exact absurd ho (by decide)

/-- A word at the start of a group is no operand. -/
theorem name_ne_operand {name : Text} (hn : isPlainName name = true) {c : Char}
    (hc : c = ')' ∨ c = ' ') {a : Expr} (h : Shaped a) {operator : Operator}
    (ha : operator.arity = 2) (hw : operator.isWordBetween = false) (t u : Text) :
    name ++ c :: t ≠ a.infixText ++ (operator.symbol ++ u) := by
  intro ht
  obtain ⟨d, w, hsymbol, -, hclose, hspace⟩ := Operator.exists_symbol_eq_cons ha hw
  have hcloses : Closes (c :: t) := by
    rcases hc with rfl | rfl
    · exact closes_close t
    · exact closes_space t
  have hrest := (eq_var_of_name_append hn h hcloses (closes_symbol ha hw u) ht).2
  rw [hsymbol] at hrest
  obtain ⟨rfl, -⟩ := List.cons.inj hrest
  exact hc.elim hclose hspace

/-- Words are the same if neither goes on. -/
theorem eq_of_name_append {name name' : Text} (hn : isPlainName name = true)
    (hn' : isPlainName name' = true) {t t' : Text} (ht : Closes t) (ht' : Closes t')
    (h : name ++ t = name' ++ t') : name = name' ∧ t = t' := by
  obtain ⟨c, w, rfl, -, hall⟩ := exists_cons_of_isPlainName hn
  obtain ⟨c', w', rfl, -, hall'⟩ := exists_cons_of_isPlainName hn'
  exact Text.eq_of_run hall hall' (fun d hd => (ht d hd).1) (fun d hd => (ht' d hd).1) h

/-- A symbol before a parenthesis. -/
theorem eq_of_symbol_append {operator operator' : Operator} {t t' : Text}
    (h : operator.symbol ++ '(' :: t = operator'.symbol ++ '(' :: t') :
    operator = operator' ∧ t = t' := by
  have hplain : ∀ operator : Operator, ∀ c ∈ operator.symbol, (c != '(') = true := by
    intro operator c hc
    rw [bne_iff_ne]
    exact (Token.isPlain_cases ((Forest.word_symbol operator).2 c hc)).2.1
  have hopen : ∀ t : Text, ∀ c ∈ ('(' :: t).head?, (c != '(') = false := by
    intro t c hc
    cases hc
    rfl
  obtain ⟨hs, hrest⟩ := Text.eq_of_run (hplain operator) (hplain operator') (hopen t) (hopen t') h
  exact ⟨Operator.symbol_injective hs, (List.cons.inj hrest).2⟩

theorem opening_unary_ne (operator : Operator) (a : Expr) :
    (operation operator [a]).opening ≠ .number ∧ (operation operator [a]).opening ≠ .group := by
  rw [opening]
  split <;> exact ⟨nofun, nofun⟩

/-- The forms that infix text has. -/
inductive Form
  | constant | var | nullary | unary | binary | ternary

def form : Expr → Form
  | constant _ => .constant
  | var _ => .var
  | operation _ [] => .nullary
  | operation _ [_] => .unary
  | operation _ [_, _] => .binary
  | operation _ _ => .ternary

theorem nullary_append_ne_binary {operator : Operator} {a : Expr} (ha : operator.arity = 2)
    (hw : operator.isWordBetween = false) (hs : Shaped a) (b : Expr) (r r' : Text) :
    (operation .rand []).infixText ++ r ≠ (operation operator [a, b]).infixText ++ r' := by
  rw [infixText_nullary_append, infixText_binary_append]
  exact fun ht => name_ne_operand rfl (Or.inl rfl) hs ha hw _ _ (List.cons.inj ht).2

theorem ternary_append_ne_binary {operator operator' : Operator} {a' : Expr}
    (ha : operator.arity = 3) (ha' : operator'.arity = 2) (hw' : operator'.isWordBetween = false)
    (hs' : Shaped a') (a b c b' : Expr) (r r' : Text) :
    (operation operator [a, b, c]).infixText ++ r ≠
      (operation operator' [a', b']).infixText ++ r' := by
  have hname := Operator.isPlainName_of_arity_three ha
  rw [infixText_ternary_append, infixText_binary_append]
  exact fun ht => name_ne_operand hname (Or.inr rfl) hs' ha' hw' _ _ (List.cons.inj ht).2

theorem nullary_append_ne_ternary {operator : Operator} (ha : operator.arity = 3)
    (a b c : Expr) (r r' : Text) :
    (operation .rand []).infixText ++ r ≠ (operation operator [a, b, c]).infixText ++ r' := by
  have hrand : isPlainName Operator.rand.symbol = true := rfl
  rw [infixText_nullary_append, infixText_ternary_append]
  intro ht
  have hrest := (eq_of_name_append hrand (Operator.isPlainName_of_arity_three ha)
    (closes_close _) (closes_space _) (List.cons.inj ht).2).2
  exact absurd (List.cons.inj hrest).1 (by decide)

/-- Equal texts are of one form. -/
theorem form_eq {e e' : Expr} (h : Shaped e) (h' : Shaped e') {r r' : Text} (hr : Closes r)
    (hr' : Closes r') (ht : e.infixText ++ r = e'.infixText ++ r') : e.form = e'.form := by
  have ho := opening_eq h h' ht
  cases h with
  | constant =>
    cases h' with
    | constant => rfl
    | unary => exact absurd ho.symm (opening_unary_ne _ _).1
    | _ => cases ho
  | var hn =>
    obtain ⟨⟨_, rfl, -⟩, -⟩ := eq_var_of_name_append hn h' hr hr' ht
    rfl
  | nullary =>
    cases h' with
    | nullary => rfl
    | unary => exact absurd ho.symm (opening_unary_ne _ _).2
    | binary ha' hw' hs' => exact absurd ht (nullary_append_ne_binary ha' hw' hs' _ _ _)
    | ternary ha' => exact absurd ht (nullary_append_ne_ternary ha' _ _ _ _ _)
    | _ => cases ho
  | unary ha hs =>
    cases h' with
    | unary => rfl
    | var hn' =>
      obtain ⟨⟨_, he, -⟩, -⟩ := eq_var_of_name_append hn' (.unary ha hs) hr' hr ht.symm
      cases he
    | constant => exact absurd ho (opening_unary_ne _ _).1
    | _ => exact absurd ho (opening_unary_ne _ _).2
  | binary ha hw hs =>
    cases h' with
    | binary => rfl
    | unary => exact absurd ho.symm (opening_unary_ne _ _).2
    | nullary => exact absurd ht.symm (nullary_append_ne_binary ha hw hs _ _ _)
    | ternary ha' => exact absurd ht.symm (ternary_append_ne_binary ha' ha hw hs _ _ _ _ _ _)
    | _ => cases ho
  | ternary ha =>
    cases h' with
    | ternary => rfl
    | unary => exact absurd ho.symm (opening_unary_ne _ _).2
    | nullary => exact absurd ht.symm (nullary_append_ne_ternary ha _ _ _ _ _)
    | binary ha' hw' hs' => exact absurd ht (ternary_append_ne_binary ha ha' hw' hs' _ _ _ _ _ _)
    | _ => cases ho

/-- A formula can be told from a text that its infix text stands in front of. -/
theorem infixText_append_injective {e e' : Expr} (h : Shaped e) (h' : Shaped e') {r r' : Text}
    (hr : Closes r) (hr' : Closes r') (ht : e.infixText ++ r = e'.infixText ++ r') :
    e.byName = e'.byName ∧ r = r' := by
  induction h generalizing e' r r' with
  | constant hx =>
    have hform := form_eq (.constant hx) h' hr hr' ht
    cases h' with
    | constant hx' =>
      obtain ⟨rfl, hrest⟩ := Layout.write_append_injective hx hx' hr.ends hr'.ends ht
      exact ⟨rfl, hrest⟩
    | _ => cases hform
  | @var cell hn =>
    obtain ⟨⟨cell', rfl, hname⟩, hrest⟩ := eq_var_of_name_append hn h' hr hr' ht
    refine ⟨?_, hrest⟩
    show var ⟨cell.name, 0⟩ = var ⟨cell'.name, 0⟩
    rw [hname]
  | nullary =>
    have hform := form_eq .nullary h' hr hr' ht
    cases h' with
    | nullary =>
      rw [infixText_nullary_append, infixText_nullary_append] at ht
      have hrest := List.append_cancel_left (List.cons.inj ht).2
      exact ⟨rfl, (List.cons.inj hrest).2⟩
    | _ => cases hform
  | @unary operator a ha hs ih =>
    have hform := form_eq (.unary ha hs) h' hr hr' ht
    cases h' with
    | unary _ hs' =>
      rw [infixText_unary_append, infixText_unary_append] at ht
      obtain ⟨rfl, hoperand⟩ := eq_of_symbol_append ht
      obtain ⟨he, hrest⟩ := ih hs' (closes_close r) (closes_close r') hoperand
      exact ⟨congrArg (fun e => operation operator [e]) he, (List.cons.inj hrest).2⟩
    | _ => cases hform
  | @binary operator a b ha hw hs hs' ih ih' =>
    have hform := form_eq (.binary ha hw hs hs') h' hr hr' ht
    cases h' with
    | @binary operator' a' b' ha' hw' hb hb' =>
      rw [infixText_binary_append, infixText_binary_append] at ht
      obtain ⟨he, hrest⟩ := ih hb (closes_symbol ha hw _) (closes_symbol ha' hw' _)
        (List.cons.inj ht).2
      have hlead := congrArg Operator.leading hrest
      rw [leading_symbol_append ha hw hs', leading_symbol_append ha' hw' hb'] at hlead
      obtain rfl := Operator.symbol_injective hlead
      obtain ⟨he', hlast⟩ := ih' hb' (closes_close r) (closes_close r')
        (List.append_cancel_left hrest)
      refine ⟨?_, (List.cons.inj hlast).2⟩
      show operation operator [a.byName, b.byName] = operation operator [a'.byName, b'.byName]
      rw [he, he']
    | _ => cases hform
  | @ternary operator a b c ha hs hs' hs'' ih ih' ih'' =>
    have hform := form_eq (.ternary ha hs hs' hs'') h' hr hr' ht
    cases h' with
    | @ternary operator' a' b' c' ha' hc hc' hc'' =>
      rw [infixText_ternary_append, infixText_ternary_append] at ht
      obtain ⟨hsymbol, hrest⟩ := eq_of_name_append (Operator.isPlainName_of_arity_three ha)
        (Operator.isPlainName_of_arity_three ha') (closes_space _) (closes_space _)
        (List.cons.inj ht).2
      obtain rfl := Operator.symbol_injective hsymbol
      obtain ⟨he, hrest⟩ := ih hc (closes_space _) (closes_space _) (List.cons.inj hrest).2
      obtain ⟨he', hrest⟩ := ih' hc' (closes_space _) (closes_space _) (List.cons.inj hrest).2
      obtain ⟨he'', hrest⟩ := ih'' hc'' (closes_close r) (closes_close r') (List.cons.inj hrest).2
      refine ⟨?_, (List.cons.inj hrest).2⟩
      show operation operator [a.byName, b.byName, c.byName] =
        operation operator [a'.byName, b'.byName, c'.byName]
      rw [he, he', he'']
    | _ => cases hform

mutual

theorem shaped_of_plain : ∀ e : Expr, e.Plain → e.WellFormed → Shaped e
  | constant value, h, _ => .constant h
  | var cell, h, _ => .var h
  | operation operator operands, h, hw => by
    have hall := shaped_of_allPlain operands h.2 hw.2
    have harity := hw.1
    match operands with
    | [] =>
      rw [Operator.eq_rand_of_arity harity.symm]
      exact .nullary
    | [a] => exact .unary harity.symm (hall a (by simp))
    | [a, b] => exact .binary harity.symm h.1 (hall a (by simp)) (hall b (by simp))
    | [a, b, c] =>
      exact .ternary harity.symm (hall a (by simp)) (hall b (by simp)) (hall c (by simp))
    | _ :: _ :: _ :: _ :: _ =>
      have hle := operator.arity_le
      simp only [List.length_cons] at harity
      omega

theorem shaped_of_allPlain :
    ∀ es : List Expr, AllPlain es → AllWellFormed es → ∀ e ∈ es, Shaped e
  | [], _, _ => fun _ hm => nomatch hm
  | e :: rest, h, hw =>
    List.forall_mem_cons.mpr ⟨shaped_of_plain e h.1 hw.1, shaped_of_allPlain rest h.2 hw.2⟩

end

/-- Formulas that are read and have the same infix text are the same but for their cells, if
their names are plain, their constants finite and no operator between operands a word. -/
theorem byName_of_infixText {limit limit' : Nat} {t t' : Text} {scope scope' : Scope}
    {e e' : Expr} (h : (read limit t scope).1 = .ok (some e))
    (h' : (read limit' t' scope').1 = .ok (some e')) (hp : e.Plain) (hp' : e'.Plain)
    (hi : e.infixText = e'.infixText) : e.byName = e'.byName := by
  have hs := shaped_of_plain e hp (wellFormed_of_read h)
  have hs' := shaped_of_plain e' hp' (wellFormed_of_read h')
  refine (infixText_append_injective hs hs' closes_nil closes_nil ?_).1
  rw [hi]

/-- A minus sign behind a minus, in formulas that are read in different scopes. -/
theorem byName_of_infixText_minus :
    ∃ (e e' : Expr) (scope : Scope) (x : Double), scope = (Scope.new.intern "b".toList).2 ∧
      e = operation .subtract [var ⟨"a".toList, 0⟩, constant x] ∧
      e' = operation .subtract [var ⟨"a".toList, 1⟩, constant x] ∧
      (read 1 "- a -1.0".toList Scope.new).1 = .ok (some e) ∧
      (read 1 "(- a -1.0)".toList scope).1 = .ok (some e') ∧ e.Plain ∧ e'.Plain ∧
      e.infixText = e'.infixText ∧ e.byName = e'.byName := by
  have ht : Forest.ofText? "- a -1.0".toList =
      .ok [.atom "-".toList, .atom "a".toList, .atom "-1.0".toList] := rfl
  have ht' : Forest.ofText? "(- a -1.0)".toList = .ok [.group "(- a -1.0)".toList
      [.atom "-".toList, .atom "a".toList, .atom "-1.0".toList]] := rfl
  have hfinite : (Number.signed true (Decimal.toDouble ⟨10, -1⟩)).isFinite = true := rfl
  have hread : (read 1 "- a -1.0".toList Scope.new).1 =
      .ok (some (operation .subtract [var ⟨"a".toList, 0⟩,
        constant (Number.signed true (Decimal.toDouble ⟨10, -1⟩))])) := by
    rw [Forest.read_of_ok ht]
    rfl
  have hread' : (read 1 "(- a -1.0)".toList (Scope.new.intern "b".toList).2).1 =
      .ok (some (operation .subtract [var ⟨"a".toList, 1⟩,
        constant (Number.signed true (Decimal.toDouble ⟨10, -1⟩))])) := by
    rw [Forest.read_of_ok ht']
    rfl
  have hplain : ∀ id : Nat, (operation .subtract [var ⟨"a".toList, id⟩,
      constant (Number.signed true (Decimal.toDouble ⟨10, -1⟩))]).Plain := fun _ =>
    ⟨rfl, rfl, hfinite, trivial⟩
  exact ⟨_, _, _, _, rfl, rfl, rfl, hread, hread', hplain 0, hplain 1, rfl,
    byName_of_infixText hread hread' (hplain 0) (hplain 1) rfl⟩

end Expr
end ScoreFormula

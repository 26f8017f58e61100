import NeonWrt.Luci.Validation

/-!
# The compiler of datatypes

A datatype is written as an expression of type names, numbers and strings, with argument
lists in parentheses. `compile` goes over the text once, cuts it at the commas and
parentheses outside strings, and compiles each argument list as a text of its own. A blank
behind an argument list is taken for an argument of no name, and a string with a line
terminator is not recognised.
-/

namespace NeonWrt.Luci.Validation

open Lib

/-- The names of the types. -/
def typeNames : List String :=
  ["integer", "uinteger", "float", "ufloat", "ipaddr", "ip4addr", "ip6addr", "ip6ll", "ip6ula",
    "ip4prefix", "ip6prefix", "cidr", "cidr4", "cidr6", "ipnet4", "ipnet6", "ip6hostid", "ipmask",
    "ipmask4", "ipmask6", "iprange", "iprange4", "iprange6", "port", "portrange", "macaddr", "host",
    "hostname", "network", "hostport", "ip4addrport", "ipaddrport", "sep", "tuple", "wpakey",
    "wepkey", "uciname", "ucifw4zonename", "netdevname", "range", "min", "max", "length",
    "rangelength", "minlength", "maxlength", "or", "and", "neg", "list", "phonedigit", "timehhmmss",
    "dateyyyymmdd", "unique", "hexstring", "string", "directory", "file", "device"]

/-- The functions that every object inherits. -/
def inheritedNames : List String :=
  ["constructor", "hasOwnProperty", "isPrototypeOf", "propertyIsEnumerable", "toLocaleString",
    "toString", "valueOf", "__defineGetter__", "__defineSetter__", "__lookupGetter__",
    "__lookupSetter__"]

/-- `typeof this.types[label] == 'function'` -/
def isType (label : JsString) : Bool := (typeNames ++ inheritedNames).any fun n => units n = label

/-- What stands on a stack: literals, and functions with the stack of their arguments. -/
inductive Item
  | num (q : JsNumber)
  | str (s : JsString)
  | fn (name : JsString)
  | null
  | stack (l : List Item)

/-- The errors that `compile` raises. -/
inductive SyntaxError
  | unhandledToken (label : JsString)
  | notFunction

/-- The text of an error. -/
def SyntaxError.message : SyntaxError → JsString
  | .unhandledToken label => units "Unhandled token \"" ++ label ++ units "\""
  | .notFunction => units "Argument list follows non-function"

/-- `label.replace(/\\(.)/g, '$1')` -/
def unescape : JsString → JsString
  | [] => []
  | [c] => [c]
  | c :: d :: l => if c = 92 ∧ !isLineEnd d then d :: unescape l else c :: unescape (d :: l)

/-- The text between the quotes of `/^(['"])(.*)\1$/`. -/
def quotedText : JsString → Option JsString
  | [] => none
  | q :: l =>
    if (q = 34 ∨ q = 39) ∧ l.getLast? = some q ∧ !l.dropLast.any isLineEnd then some l.dropLast
    else none

/-- The text between two commas or parentheses goes onto the stack. -/
def pushLabel (stack : List Item) (token : JsString) : Except SyntaxError (List Item) :=
  let label := trimBy isBlank (unescape token)
  if label ≠ [] ∧ toNumber label ≠ .nan then .ok (stack ++ [.num (parseFloat label)])
  else
    match quotedText label with
    | some s => .ok (stack ++ [.str s])
    | none =>
      if isType label then .ok (stack ++ [.fn label, .null]) else .error (.unhandledToken label)

/-- `if (pos < i) …` -/
def pushToken (stack : List Item) (token : JsString) : Except SyntaxError (List Item) :=
  if token = [] then .ok stack else pushLabel stack token

/-- The rest of a string up to its closing quote, and what comes behind it. -/
def skipString (quote : UInt16) : JsString → Option (JsString × JsString)
  | [] => none
  | [c] => if c ≠ 92 ∧ c = quote then some ([c], []) else none
  | c :: d :: l =>
    if c = 92 then (skipString quote l).map fun (s, r) => (c :: d :: s, r)
    else if c = quote then some ([c], d :: l)
    else (skipString quote (d :: l)).map fun (s, r) => (c :: s, r)

/-- `typeof stack[stack.length-2] == 'function'` -/
def endsInFunction (stack : List Item) : Bool :=
  match stack.reverse with
  | _ :: .fn _ :: _ => true
  | _ => false

theorem skipString_eq {q : UInt16} {l s r : JsString} (h : skipString q l = some (s, r)) :
    l = s ++ r := by
  fun_induction skipString q l generalizing s r with
  | case1 => cases h
  | case2 c hc =>
    cases h
    rfl
  | case3 => cases h
  | case4 d l ih =>
    obtain ⟨⟨s', r'⟩, hs, heq⟩ := Option.map_eq_some_iff.mp h
    cases heq
    rw [ih hs]
    rfl
  | case5 d l =>
    cases h
    rfl
  | case6 c d l _ _ ih =>
    obtain ⟨⟨s', r'⟩, hs, heq⟩ := Option.map_eq_some_iff.mp h
    cases heq
    rw [ih hs]
    rfl

theorem lt_of_le_of_lt {n n' m m' : ℕ} (hn : n' ≤ n) (hm : m' < m) :
    Prod.Lex (· < ·) (· < ·) (n', m') (n, m) := by
  rcases Nat.lt_or_eq_of_le hn with hlt | rfl
  · exact Prod.Lex.left _ _ hlt
  · exact Prod.Lex.right _ hm

theorem lt_read (token rest : JsString) (c : UInt16) :
    Prod.Lex (· < ·) (· < ·) ((token ++ [c] ++ rest).count 41, rest.length)
      ((token ++ c :: rest).count 41, (c :: rest).length) :=
  lt_of_le_of_lt (by simp) (by simp)

theorem lt_cut (token rest : JsString) (c : UInt16) :
    Prod.Lex (· < ·) (· < ·) (([] ++ rest).count 41, rest.length)
      ((token ++ c :: rest).count 41, (c :: rest).length) := by
  refine lt_of_le_of_lt ?_ (by simp)
  simp only [List.nil_append, List.count_append, List.count_cons]
  omega

/-- The loop of `compile` over the text; `token` is the text from `pos` on. -/
def compileLoop (code token : JsString) (esc : Bool) (depth : ℤ) (stack : List Item) :
    Except SyntaxError (List Item) :=
  match code with
  | [] => .ok stack
  | c :: rest =>
    if esc then compileLoop rest (token ++ [c]) false depth stack
    else if c = 92 then compileLoop rest (token ++ [c]) true depth stack
    else if c = 34 ∨ c = 39 then
      match _h : skipString c rest with
      | some (quoted, rest') => compileLoop rest' (token ++ c :: quoted) false depth stack
      | none => compileLoop rest (token ++ [c]) false depth stack
    else if c = 40 ∨ c = 44 then
      let inner := depth + if c = 40 then 1 else 0
      if depth ≤ 0 then
        match pushToken stack token with
        | .ok stack => compileLoop rest [] false inner stack
        | .error e => .error e
      else compileLoop rest (token ++ [c]) false inner stack
    else if c = 41 then
      if depth - 1 ≤ 0 then
        if endsInFunction stack then
          match compileLoop (token ++ [44]) [] false 0 [] with
          | .ok args => compileLoop rest [] false (depth - 1) (stack.dropLast ++ [.stack args])
          | .error e => .error e
        else .error .notFunction
      else compileLoop rest (token ++ [c]) false (depth - 1) stack
    else compileLoop rest (token ++ [c]) false depth stack
termination_by ((token ++ code).count 41, code.length)
decreasing_by
  · exact lt_read token rest c
  · exact lt_read token rest c
  · rw [skipString_eq _h]
    exact lt_of_le_of_lt (by simp) (by simp only [List.length_cons, List.length_append]; omega)
  · exact lt_read token rest c
  · exact lt_cut token rest c
  · exact lt_read token rest c
  · -- An argument list has one closing parenthesis less than the text.
    refine Prod.Lex.left _ _ ?_
    simp only [List.nil_append, List.count_append, List.count_cons, List.count_nil, *]
    simp
  · exact lt_cut token rest c
  · exact lt_read token rest c
  · exact lt_read token rest c

/-- `compile(code)` -/
def compile (code : JsString) : Except SyntaxError (List Item) :=
  compileLoop (code ++ [44]) [] false 0 []

/-- The characters that the loop looks at. -/
def isDelimiter (c : UInt16) : Bool := c = 34 || c = 39 || c = 40 || c = 41 || c = 44 || c = 92

/-- Blanks around an argument. -/
def Blanks := { b : JsString // ∀ c ∈ b, isBlank c = true }

/-- A registered type. -/
structure TypeName where
  text : JsString
  registered : isType text = true

/-- A text that stands for a number, without delimiters and blanks around it. -/
structure NumberLit where
  text : JsString
  ne_nil : text ≠ []
  plain : ∀ c ∈ text, isDelimiter c = false
  trimmed : trimBy isBlank text = text
  number : toNumber text ≠ .nan

/-- A string in quotes. Its characters stand there as they are or behind a backslash; the quote and
backslashes always behind one. -/
structure StringLit where
  quote : UInt16
  hquote : quote = 34 ∨ quote = 39
  chars : List (Bool × UInt16)
  raw : ∀ c, (false, c) ∈ chars → c ≠ quote ∧ c ≠ 92

namespace StringLit

variable (s : StringLit)

/-- The string itself. -/
def value : JsString := s.chars.map (·.2)

/-- What stands between the quotes. -/
def body : JsString := s.chars.flatMap fun x => if x.1 then [92, x.2] else [x.2]

/-- The string with its quotes. -/
def print : JsString := s.quote :: (s.body ++ [s.quote])

end StringLit

mutual

/-- An expression. -/
inductive Expr
  | num (n : NumberLit)
  | str (s : StringLit)
  | name (t : TypeName)
  | call (t : TypeName) (args : List Arg)

/-- An argument with the blanks around it. -/
inductive Arg
  | mk (before : Blanks) (e : Expr) (after : Blanks)

end

mutual

/-- How an expression is written. -/
def Expr.print : Expr → JsString
  | .num n => n.text
  | .str s => s.print
  | .name t => t.text
  | .call t args => t.text ++ 40 :: (printArgs args ++ [41])

/-- How an argument is written. -/
def Arg.print : Arg → JsString
  | .mk before e after => before.1 ++ (e.print ++ after.1)

/-- Arguments with commas between them. -/
def printArgs : List Arg → JsString
  | [] => []
  | [a] => a.print
  | a :: b :: args => a.print ++ 44 :: printArgs (b :: args)

end

mutual

/-- What stands for an expression on the stack. -/
def Expr.items : Expr → List Item
  | .num n => [.num (toNumber n.text)]
  | .str s => [.str s.value]
  | .name t => [.fn t.text, .null]
  | .call t args => [.fn t.text, .stack (stackArgs args)]

/-- The stack of an argument list. -/
def stackArgs : List Arg → List Item
  | [] => []
  | .mk _ e _ :: args => e.items ++ stackArgs args

end

/-- The expression has an argument list. -/
def Expr.isCall : Expr → Bool
  | .call _ _ => true
  | _ => false

mutual

/-- Numbers are the same for `parseFloat`, and strings have no line terminators. -/
def Expr.Clean : Expr → Prop
  | .num n => parseFloat n.text = toNumber n.text
  | .str s => ∀ c ∈ s.value, isLineEnd c = false
  | .name _ => True
  | .call _ args => CleanArgs args

/-- And no blanks stand behind an argument list. -/
def CleanArgs : List Arg → Prop
  | [] => True
  | .mk _ e after :: args => (e.Clean ∧ (e.isCall = true → after.1 = [])) ∧ CleanArgs args

end

section Strings

variable {s : StringLit} {l r : JsString} {c q : UInt16}

theorem skipString_cons (hslash : c ≠ 92) (hquote : c ≠ q) (hl : l ≠ []) :
    skipString q (c :: l) = (skipString q l).map fun (s, r) => (c :: s, r) := by
  obtain ⟨d, l, rfl⟩ := List.exists_cons_of_ne_nil hl
  rw [skipString, if_neg hslash, if_neg hquote]

theorem skipString_close (hq : q ≠ 92) (l : JsString) : skipString q (q :: l) = some ([q], l) := by
  cases l with
  | nil => simp [skipString, hq]
  | cons d l => simp [skipString, hq]

theorem StringLit.quote_ne_slash (s : StringLit) : s.quote ≠ 92 := by
  rcases s.hquote with h | h <;> rw [h] <;> decide

/-- A string is skipped up to its closing quote. -/
theorem skipString_chars {chars : List (Bool × UInt16)} (hq : q ≠ 92)
    (hraw : ∀ c, (false, c) ∈ chars → c ≠ q ∧ c ≠ 92) (rest : JsString) :
    skipString q ((chars.flatMap fun x => if x.1 then [92, x.2] else [x.2]) ++
        q :: rest) =
      some ((chars.flatMap fun x => if x.1 then [92, x.2] else [x.2]) ++ [q], rest) := by
  induction chars with
  | nil => exact skipString_close hq rest
  | cons x chars ih =>
    obtain ⟨escaped, c⟩ := x
    have hih := ih fun d hd => hraw d (List.mem_cons_of_mem _ hd)
    cases escaped with
    | true =>
      simp only [List.flatMap_cons, if_true, List.cons_append, List.nil_append]
      rw [skipString, if_pos rfl, hih]
      rfl
    | false =>
      obtain ⟨hquote, hslash⟩ := hraw c (List.mem_cons_self ..)
      simp only [List.flatMap_cons, Bool.false_eq_true, if_false, List.cons_append, List.nil_append]
      rw [skipString_cons hslash hquote (by simp), hih]
      rfl

theorem StringLit.skip (s : StringLit) (rest : JsString) :
    skipString s.quote (s.body ++ s.quote :: rest) = some (s.body ++ [s.quote], rest) :=
  skipString_chars s.quote_ne_slash s.raw rest

theorem unescape_cons (hc : c ≠ 92) (l : JsString) : unescape (c :: l) = c :: unescape l := by
  cases l with
  | nil => rfl
  | cons d l => rw [unescape, if_neg (by simp [hc])]

theorem unescape_plain (hr : ∀ c ∈ r, c ≠ 92) (l : JsString) :
    unescape (r ++ l) = r ++ unescape l := by
  induction r with
  | nil => rfl
  | cons c r ih =>
    rw [List.cons_append, unescape_cons (hr c (List.mem_cons_self ..)),
      ih fun d hd => hr d (List.mem_cons_of_mem _ hd)]
    rfl

/-- What is left of the escapes: a backslash stays before a line terminator. -/
def StringLit.unescaped (s : StringLit) : JsString :=
  s.chars.flatMap fun x => if x.1 ∧ isLineEnd x.2 then [92, x.2] else [x.2]

theorem unescape_body (s : StringLit) (l : JsString) :
    unescape (s.body ++ l) = s.unescaped ++ unescape l := by
  have hraw := s.raw
  unfold StringLit.body StringLit.unescaped
  generalize s.chars = chars at hraw
  induction chars with
  | nil => rfl
  | cons x chars ih =>
    obtain ⟨escaped, c⟩ := x
    have hih := ih fun d hd => hraw d (List.mem_cons_of_mem _ hd)
    cases escaped with
    | true =>
      simp only [List.flatMap_cons, if_true, List.cons_append, List.nil_append, true_and]
      by_cases hc : isLineEnd c = true
      · have hslash : c ≠ 92 := by
          rintro rfl
          exact absurd hc (by decide)
        rw [unescape, if_neg (by simp [hc]), unescape_cons hslash, hih, if_pos hc]
        rfl
      · rw [unescape, if_pos (by simp [hc]), hih, if_neg hc]
        rfl
    | false =>
      have hslash := (hraw c (List.mem_cons_self ..)).2
      simp only [List.flatMap_cons, Bool.false_eq_true, if_false, List.cons_append,
        List.nil_append, false_and]
      rw [unescape_cons hslash, hih]

theorem any_unescaped (s : StringLit) : s.unescaped.any isLineEnd = s.value.any isLineEnd := by
  unfold StringLit.unescaped StringLit.value
  induction s.chars with
  | nil => rfl
  | cons x chars ih =>
    obtain ⟨escaped, c⟩ := x
    rw [List.flatMap_cons, List.any_append, ih, List.map_cons, List.any_cons]
    split_ifs with h
    · simp [h.2]
    · simp

theorem unescaped_eq_value (h : ∀ c ∈ s.value, isLineEnd c = false) : s.unescaped = s.value := by
  unfold StringLit.unescaped
  unfold StringLit.value at h ⊢
  generalize s.chars = chars at h
  induction chars with
  | nil => rfl
  | cons x chars ih =>
    obtain ⟨escaped, c⟩ := x
    rw [List.map_cons, List.forall_mem_cons] at h
    rw [List.flatMap_cons, ih h.2, List.map_cons, if_neg (by simp [h.1])]
    rfl

end Strings

section Labels

variable {stack : List Item} {l r : JsString} {c q : UInt16}

/-- A letter or an underscore. -/
def isLetter (c : UInt16) : Bool := (65 ≤ c && c ≤ 90) || (97 ≤ c && c ≤ 122) || c = 95

theorem isLetter_spec (h : isLetter c = true ∨ isDigit c = true) :
    isDelimiter c = false ∧ isBlank c = false ∧ jsSpace c = false := by
  simp only [isLetter, isDigit, isDelimiter, isBlank, jsSpace, Bool.or_eq_true, Bool.and_eq_true,
    decide_eq_true_eq, Bool.or_eq_false_iff, Bool.and_eq_false_iff, decide_eq_false_iff_not,
    beq_eq_false_iff_ne, ne_eq, UInt16.le_iff_toNat_le, ← UInt16.toNat_inj,
    UInt16.reduceToNat] at h ⊢
  omega

/-- The name of a type is a word, and none starts as `Infinity` does. -/
theorem typeName_word : (typeNames ++ inheritedNames).all (fun n =>
    (units n).all (fun c => isLetter c || isDigit c) &&
      (units n).head?.any fun c => isLetter c && c ≠ 73) = true := by
  decide +kernel

theorem isType_spec (h : isType l = true) : l ≠ [] ∧
    (∀ c ∈ l, isDelimiter c = false ∧ isBlank c = false) ∧ toNumber l = .nan := by
  obtain ⟨n, hn, heq⟩ := List.any_eq_true.mp h
  have hword := List.all_eq_true.mp typeName_word n hn
  rw [of_decide_eq_true heq, Bool.and_eq_true, List.all_eq_true] at hword
  obtain ⟨hall, hhead⟩ := hword
  have hchar : ∀ c ∈ l, isDelimiter c = false ∧ isBlank c = false ∧ jsSpace c = false := fun c hc =>
    isLetter_spec (by simpa using hall c hc)
  cases l with
  | nil => cases hhead
  | cons c l =>
    have hfirst : isLetter c = true ∧ c ≠ 73 := by simpa using hhead
    have hstart : isDigit c = false ∧ c ∉ units "+-.I" := by
      obtain ⟨hletter, hinf⟩ := hfirst
      have hunits : units "+-.I" = [43, 45, 46, 73] := by decide
      rw [hunits]
      simp only [isLetter, isDigit, Bool.or_eq_true, Bool.and_eq_true, decide_eq_true_eq,
        Bool.and_eq_false_iff, decide_eq_false_iff_not, List.mem_cons, List.not_mem_nil, or_false,
        ne_eq, UInt16.le_iff_toNat_le, ← UInt16.toNat_inj, UInt16.reduceToNat] at hletter hinf ⊢
      omega
    refine ⟨by simp, fun d hd => ⟨(hchar d hd).1, (hchar d hd).2.1⟩, ?_⟩
    exact toNumber_eq_nan hstart.1 hstart.2 (hchar c (by simp)).2.2
      fun d hd => (hchar d (List.mem_of_mem_getLast? hd)).2.2

theorem slash_of_delimiter (h : isDelimiter c = false) : c ≠ 92 := by
  rintro rfl
  exact absurd h (by decide)

theorem slash_of_blank (h : isBlank c = true) : c ≠ 92 := by
  rintro rfl
  exact absurd h (by decide)

theorem trim_blanks (before after : Blanks) (hhead : ∀ c ∈ l.head?, isBlank c = false)
    (hlast : ∀ c ∈ l.getLast?, isBlank c = false) :
    trimBy isBlank (before.1 ++ (l ++ after.1)) = l := by
  rw [← List.append_assoc]
  exact trimBy_eq_of_append before.2 after.2 hhead hlast

theorem unescape_blanks (before : Blanks) (l : JsString) :
    unescape (before.1 ++ l) = before.1 ++ unescape l :=
  unescape_plain (fun _ hc => slash_of_blank (before.2 _ hc)) l

theorem unescape_blanks_self (after : Blanks) : unescape after.1 = after.1 := by
  have := unescape_blanks after []
  rwa [List.append_nil, unescape, List.append_nil] at this

/-- A text that starts with a quote and ends in one is no number. -/
theorem toNumber_quote (hq : q = 34 ∨ q = 39) (hlast : l.getLast? = some q) :
    toNumber (q :: l) = .nan := by
  have hquote : isDigit q = false ∧ q ∉ units "+-.I" ∧ jsSpace q = false := by
    rcases hq with rfl | rfl <;> decide
  refine toNumber_eq_nan hquote.1 hquote.2.1 hquote.2.2 fun d hd => ?_
  rw [List.getLast?_cons, hlast] at hd
  cases hd
  exact hquote.2.2

theorem pushLabel_of_nan {token label : JsString} (hlabel : trimBy isBlank (unescape token) = label)
    (hnan : label = [] ∨ toNumber label = .nan) : pushLabel stack token =
      match quotedText label with
      | some s => .ok (stack ++ [.str s])
      | none =>
        if isType label then .ok (stack ++ [.fn label, .null])
        else .error (.unhandledToken label) := by
  rw [pushLabel, hlabel]
  exact if_neg (by tauto)

theorem pushLabel_number (n : NumberLit) (before after : Blanks) :
    pushLabel stack (before.1 ++ (n.text ++ after.1)) =
      .ok (stack ++ [.num (parseFloat n.text)]) := by
  have hunescape : unescape (before.1 ++ (n.text ++ after.1)) = before.1 ++ (n.text ++ after.1) := by
    rw [unescape_blanks, unescape_plain fun c hc => slash_of_delimiter (n.plain c hc),
      unescape_blanks_self]
  have htrim : trimBy isBlank (unescape (before.1 ++ (n.text ++ after.1))) = n.text := by
    rw [hunescape]
    apply trim_blanks
    · rw [← n.trimmed]
      exact head_trimBy n.text
    · rw [← n.trimmed]
      exact getLast_trimBy n.text
  rw [pushLabel, htrim]
  exact if_pos ⟨n.ne_nil, n.number⟩

theorem quotedText_of_head (h : ∀ c ∈ l.head?, c ≠ 34 ∧ c ≠ 39) : quotedText l = none := by
  cases l with
  | nil => rfl
  | cons c l =>
    obtain ⟨h34, h39⟩ := h c rfl
    simp [quotedText, h34, h39]

theorem pushLabel_name (t : TypeName) (before after : Blanks) :
    pushLabel stack (before.1 ++ (t.text ++ after.1)) = .ok (stack ++ [.fn t.text, .null]) := by
  obtain ⟨hne, hchars, hnan⟩ := isType_spec t.registered
  have hunescape : unescape (before.1 ++ (t.text ++ after.1)) = before.1 ++ (t.text ++ after.1) := by
    rw [unescape_blanks, unescape_plain fun c hc => slash_of_delimiter (hchars c hc).1,
      unescape_blanks_self]
  have htrim : trimBy isBlank (unescape (before.1 ++ (t.text ++ after.1))) = t.text := by
    rw [hunescape]
    exact trim_blanks before after (fun c hc => (hchars c (List.mem_of_mem_head? hc)).2)
      fun c hc => (hchars c (List.mem_of_mem_getLast? hc)).2
  have hquoted : quotedText t.text = none := by
    apply quotedText_of_head
    intro c hc
    have := (hchars c (List.mem_of_mem_head? hc)).1
    constructor <;> rintro rfl <;> exact absurd this (by decide)
  rw [pushLabel_of_nan htrim (Or.inr hnan), hquoted]
  exact if_pos t.registered

/-- A string with a line terminator is no label. -/
theorem pushLabel_string (s : StringLit) (before after : Blanks) :
    ∃ r : Except SyntaxError (List Item), (r = .ok [.str s.value] ↔
        ∀ c ∈ s.value, isLineEnd c = false) ∧ (∀ x, r = .ok x → x.length = 1) ∧
      ∀ stack, pushLabel stack (before.1 ++ (s.print ++ after.1)) = r.map (stack ++ ·) := by
  have hlast : (s.unescaped ++ [s.quote]).getLast? = some s.quote := List.getLast?_concat
  have hspace : isBlank s.quote = false := by rcases s.hquote with h | h <;> rw [h] <;> decide
  have hunescape : unescape (before.1 ++ (s.print ++ after.1)) =
      before.1 ++ ((s.quote :: (s.unescaped ++ [s.quote])) ++ after.1) := by
    rw [unescape_blanks, StringLit.print, List.cons_append, unescape_cons s.quote_ne_slash,
      List.append_assoc, unescape_body, List.singleton_append, unescape_cons s.quote_ne_slash,
      unescape_blanks_self]
    simp
  have htrim : trimBy isBlank (unescape (before.1 ++ (s.print ++ after.1))) =
      s.quote :: (s.unescaped ++ [s.quote]) := by
    rw [hunescape]
    apply trim_blanks
    · rintro c ⟨⟩
      exact hspace
    · intro c hc
      rw [List.getLast?_cons, hlast] at hc
      cases hc
      exact hspace
  have hnan := toNumber_quote s.hquote hlast
  have htype : isType (s.quote :: (s.unescaped ++ [s.quote])) = false := by
    rw [Bool.eq_false_iff]
    intro h
    have := ((isType_spec h).2.1 s.quote (List.mem_cons_self ..)).1
    rcases s.hquote with hq | hq <;> rw [hq] at this <;> exact absurd this (by decide)
  by_cases hends : s.value.any isLineEnd = true
  · refine ⟨.error (.unhandledToken (s.quote :: (s.unescaped ++ [s.quote]))), ?_, ?_, ?_⟩
    · refine iff_of_false (by simp) fun h => ?_
      obtain ⟨c, hc, hend⟩ := List.any_eq_true.mp hends
      rw [h c hc] at hend
      cases hend
    · rintro x ⟨⟩
    · intro stack
      have hquoted : quotedText (s.quote :: (s.unescaped ++ [s.quote])) = none := by
        simp [quotedText, any_unescaped, hends]
      rw [pushLabel_of_nan htrim (Or.inr hnan), hquoted]
      simp only [htype, Bool.false_eq_true, if_false]
      rfl
  · have hclean : ∀ c ∈ s.value, isLineEnd c = false := by
      simpa using hends
    refine ⟨.ok [.str s.value], iff_of_true rfl hclean, ?_, ?_⟩
    · rintro x ⟨⟩
      rfl
    · intro stack
      have hquoted : quotedText (s.quote :: (s.unescaped ++ [s.quote])) = some s.value := by
        rw [← unescaped_eq_value hclean]
        simpa [quotedText, s.hquote, any_unescaped] using hclean
      rw [pushLabel_of_nan htrim (Or.inr hnan), hquoted]
      rfl

theorem pushLabel_blanks (after : Blanks) :
    pushLabel stack after.1 = .error (.unhandledToken []) := by
  have htrim : trimBy isBlank (unescape after.1) = [] := by
    have := trim_blanks (l := []) after ⟨[], by simp⟩ (by simp) (by simp)
    rw [unescape_blanks_self]
    simpa using this
  have htype : isType [] = false := by decide
  rw [pushLabel_of_nan htrim (Or.inl rfl), quotedText]
  simp [htype]

end Labels

section Loop

variable {stack : List Item} {token rest x y : JsString} {c : UInt16} {depth : ℤ}

theorem loop_char (hc : isDelimiter c = false) (rest token : JsString) (depth : ℤ)
    (stack : List Item) : compileLoop (c :: rest) token false depth stack =
      compileLoop rest (token ++ [c]) false depth stack := by
  simp only [isDelimiter, Bool.or_eq_false_iff, decide_eq_false_iff_not] at hc
  obtain ⟨⟨⟨⟨⟨h34, h39⟩, h40⟩, h41⟩, h44⟩, h92⟩ := hc
  rw [compileLoop]
  simp [h34, h39, h40, h41, h44, h92]

theorem loop_plain (hx : ∀ c ∈ x, isDelimiter c = false) (rest token : JsString) (depth : ℤ)
    (stack : List Item) : compileLoop (x ++ rest) token false depth stack =
      compileLoop rest (token ++ x) false depth stack := by
  induction x generalizing token with
  | nil => rw [List.append_nil]; rfl
  | cons c x ih =>
    rw [List.cons_append, loop_char (hx c (List.mem_cons_self ..)),
      ih fun d hd => hx d (List.mem_cons_of_mem _ hd), List.append_assoc]
    rfl

theorem loop_string (s : StringLit) (rest token : JsString) (depth : ℤ) (stack : List Item) :
    compileLoop (s.print ++ rest) token false depth stack =
      compileLoop rest (token ++ s.print) false depth stack := by
  have hskip := s.skip rest
  have hprint : s.print ++ rest = s.quote :: (s.body ++ s.quote :: rest) := by
    simp [StringLit.print]
  rw [hprint, compileLoop]
  simp only [Bool.false_eq_true, if_false, if_neg s.quote_ne_slash, if_pos s.hquote]
  split
  next quoted rest' h =>
    rw [hskip] at h
    cases h
    rfl
  next h =>
    rw [hskip] at h
    cases h

theorem loop_comma (h : 1 ≤ depth) (rest token : JsString) (stack : List Item) :
    compileLoop (44 :: rest) token false depth stack =
      compileLoop rest (token ++ [44]) false depth stack := by
  have hdepth : ¬depth ≤ 0 := by omega
  rw [compileLoop]
  simp [hdepth]

theorem loop_open (h : 1 ≤ depth) (rest token : JsString) (stack : List Item) :
    compileLoop (40 :: rest) token false depth stack =
      compileLoop rest (token ++ [40]) false (depth + 1) stack := by
  have hdepth : ¬depth ≤ 0 := by omega
  rw [compileLoop]
  simp [hdepth]

theorem loop_close (h : 1 ≤ depth) (rest token : JsString) (stack : List Item) :
    compileLoop (41 :: rest) token false (depth + 1) stack =
      compileLoop rest (token ++ [41]) false depth stack := by
  have hdepth : ¬depth ≤ 0 := by omega
  rw [compileLoop]
  simp [hdepth]

/-- A comma outside argument lists ends a label. -/
theorem loop_comma_zero (rest token : JsString) (stack : List Item) :
    compileLoop (44 :: rest) token false 0 stack =
      (pushToken stack token).bind fun stack => compileLoop rest [] false 0 stack := by
  rw [compileLoop]
  cases pushToken stack token <;> simp [Except.bind]

theorem loop_open_zero (rest token : JsString) (stack : List Item) :
    compileLoop (40 :: rest) token false 0 stack =
      (pushToken stack token).bind fun stack => compileLoop rest [] false 1 stack := by
  rw [compileLoop]
  cases pushToken stack token <;> simp [Except.bind]

theorem loop_close_one (rest token name : JsString) (stack : List Item) :
    compileLoop (41 :: rest) token false 1 (stack ++ [.fn name, .null]) =
      (compile token).bind fun args =>
        compileLoop rest [] false 0 (stack ++ [.fn name, .stack args]) := by
  have hfn : endsInFunction (stack ++ [.fn name, .null]) = true := by simp [endsInFunction]
  have hdrop : (stack ++ [Item.fn name, .null]).dropLast = stack ++ [.fn name] := by
    rw [List.dropLast_append_of_ne_nil (List.cons_ne_nil _ _)]
    rfl
  rw [compileLoop]
  simp only [hfn, hdrop, compile]
  cases compileLoop (token ++ [44]) [] false 0 [] <;> simp [Except.bind]

theorem loop_blanks (b : Blanks) (rest token : JsString) (depth : ℤ) (stack : List Item) :
    compileLoop (b.1 ++ rest) token false depth stack =
      compileLoop rest (token ++ b.1) false depth stack := by
  apply loop_plain
  intro c hc
  have := b.2 c hc
  simp only [isBlank, Bool.or_eq_true, decide_eq_true_eq] at this
  rcases this with rfl | rfl <;> decide

theorem loop_name (t : TypeName) (rest token : JsString) (depth : ℤ) (stack : List Item) :
    compileLoop (t.text ++ rest) token false depth stack =
      compileLoop rest (token ++ t.text) false depth stack :=
  loop_plain (fun c hc => ((isType_spec t.registered).2.1 c hc).1) rest token depth stack

end Loop

mutual

/-- Inside an argument list, an expression is passed over. -/
theorem Expr.passes : ∀ (e : Expr) (depth : ℤ), 1 ≤ depth → ∀ (rest token : JsString)
    (stack : List Item), compileLoop (e.print ++ rest) token false depth stack =
      compileLoop rest (token ++ e.print) false depth stack
  | .num n, depth, _, rest, token, stack => loop_plain n.plain rest token depth stack
  | .str s, depth, _, rest, token, stack => loop_string s rest token depth stack
  | .name t, depth, _, rest, token, stack => loop_name t rest token depth stack
  | .call t args, depth, h, rest, token, stack => by
    have hargs := passes_args args (depth + 1) (by omega) (41 :: rest) (token ++ t.text ++ [40]) stack
    rw [Expr.print, List.append_assoc, loop_name, List.cons_append, loop_open h, List.append_assoc,
      List.singleton_append, hargs, loop_close h]
    simp

theorem passes_args : ∀ (args : List Arg) (depth : ℤ), 1 ≤ depth → ∀ (rest token : JsString)
    (stack : List Item), compileLoop (printArgs args ++ rest) token false depth stack =
      compileLoop rest (token ++ printArgs args) false depth stack
  | [], _, _, rest, token, stack => by rw [printArgs, List.append_nil]; rfl
  | [.mk before e after], depth, h, rest, token, stack => by
    rw [printArgs, Arg.print, List.append_assoc, loop_blanks, List.append_assoc,
      Expr.passes e depth h, loop_blanks]
    simp
  | .mk before e after :: b :: args, depth, h, rest, token, stack => by
    rw [printArgs, Arg.print, List.append_assoc, List.append_assoc, loop_blanks, List.append_assoc,
      Expr.passes e depth h, loop_blanks, List.cons_append, loop_comma h,
      passes_args (b :: args) depth h]
    simp

end

/-- The compiler reads some items, and all of the expected ones exactly if the condition holds. -/
structure ReadsItems (r : Except SyntaxError (List Item)) (items : List Item) (clean : Prop) :
    Prop where
  iff : r = .ok items ↔ clean
  length : ∀ x, r = .ok x → x.length = items.length

theorem ReadsItems.append {r r' : Except SyntaxError (List Item)} {items items' : List Item}
    {clean clean' : Prop} (h : ReadsItems r items clean) (h' : ReadsItems r' items' clean') :
    ReadsItems (r.bind fun x => r'.map (x ++ ·)) (items ++ items') (clean ∧ clean') := by
  cases r with
  | error e => exact ⟨iff_of_false (by simp [Except.bind]) fun hc => by simpa using h.iff.mpr hc.1,
      by simp [Except.bind]⟩
  | ok x =>
    cases r' with
    | error e => exact ⟨iff_of_false (by simp [Except.bind, Except.map]) fun hc => by
        simpa using h'.iff.mpr hc.2, by simp [Except.bind, Except.map]⟩
    | ok x' =>
      have hx := h.length x rfl
      have hx' := h'.length x' rfl
      have hbind : ((.ok x : Except SyntaxError (List Item)).bind fun x =>
          (.ok x' : Except SyntaxError (List Item)).map (x ++ ·)) = .ok (x ++ x') := rfl
      refine ⟨?_, ?_⟩
      · rw [hbind, ← h.iff, ← h'.iff, Except.ok.injEq, Except.ok.injEq, Except.ok.injEq]
        exact ⟨fun heq => List.append_inj heq hx, fun ⟨hl, hr⟩ => by rw [hl, hr]⟩
      · rw [hbind]
        rintro y ⟨⟩
        rw [List.length_append, List.length_append, hx, hx']

mutual

theorem Expr.reads : ∀ (e : Expr) (before after : Blanks), ∃ r,
    ReadsItems r e.items (e.Clean ∧ (e.isCall = true → after.1 = [])) ∧
      ∀ (rest : JsString) (stack : List Item),
        compileLoop (before.1 ++ (e.print ++ (after.1 ++ 44 :: rest))) [] false 0 stack =
          r.bind fun x => compileLoop rest [] false 0 (stack ++ x)
  | .num n, before, after => by
    refine ⟨.ok [.num (parseFloat n.text)], ⟨?_, ?_⟩, fun rest stack => ?_⟩
    · simp [Expr.items, Expr.Clean, Expr.isCall]
    · rintro x ⟨⟩
      rfl
    · have hne : before.1 ++ (n.text ++ after.1) ≠ [] := by simp [n.ne_nil]
      rw [loop_blanks, Expr.print, loop_plain n.plain, loop_blanks, loop_comma_zero,
        List.nil_append, List.append_assoc, pushToken, if_neg hne, pushLabel_number]
      rfl
  | .str s, before, after => by
    obtain ⟨r, hiff, hlen, hpush⟩ := pushLabel_string s before after
    refine ⟨r, ⟨?_, hlen⟩, fun rest stack => ?_⟩
    · simpa [Expr.items, Expr.Clean, Expr.isCall] using hiff
    · have hne : before.1 ++ (s.print ++ after.1) ≠ [] := by simp [StringLit.print]
      rw [loop_blanks, Expr.print, loop_string, loop_blanks, loop_comma_zero, List.nil_append,
        List.append_assoc, pushToken, if_neg hne, hpush]
      cases r <;> rfl
  | .name t, before, after => by
    refine ⟨.ok [.fn t.text, .null], ⟨?_, ?_⟩, fun rest stack => ?_⟩
    · simp [Expr.items, Expr.Clean, Expr.isCall]
    · rintro x ⟨⟩
      rfl
    · have hne : before.1 ++ (t.text ++ after.1) ≠ [] := by
        simp [(isType_spec t.registered).1]
      rw [loop_blanks, Expr.print, loop_name, loop_blanks, loop_comma_zero, List.nil_append,
        List.append_assoc, pushToken, if_neg hne, pushLabel_name]
      rfl
  | .call t args, before, after => by
    obtain ⟨r, hr, hargs⟩ := args_read args
    have hcompile : compile (printArgs args) = r := by
      rw [compile, hargs]
      cases r <;> rfl
    refine ⟨r.bind fun inner =>
        if after.1 = [] then .ok [.fn t.text, .stack inner] else .error (.unhandledToken []),
      ⟨?_, ?_⟩, fun rest stack => ?_⟩
    · by_cases hafter : after.1 = []
      · rw [Expr.items, Expr.Clean, Expr.isCall, ← hr.iff]
        cases r <;> simp [Except.bind, hafter]
      · refine iff_of_false ?_ fun hclean => hafter (hclean.2 rfl)
        cases r <;> simp [Except.bind, hafter]
    · intro x hx
      cases r with
      | error e => cases hx
      | ok inner =>
        by_cases hafter : after.1 = []
        · simp only [Except.bind, if_pos hafter] at hx
          cases hx
          rfl
        · simp only [Except.bind, if_neg hafter] at hx
          cases hx
    · have hname : pushLabel stack (before.1 ++ (t.text ++ [])) =
          .ok (stack ++ [.fn t.text, .null]) := pushLabel_name t before ⟨[], by simp⟩
      have hne : before.1 ++ t.text ≠ [] := by simp [(isType_spec t.registered).1]
      simp only [List.append_nil] at hname
      rw [loop_blanks, Expr.print, List.append_assoc, loop_name, List.cons_append, loop_open_zero,
        List.nil_append, pushToken, if_neg hne, hname, List.append_assoc]
      simp only [Except.bind]
      rw [passes_args args 1 le_rfl, List.singleton_append, loop_close_one, List.nil_append, hcompile]
      cases r with
      | error e => rfl
      | ok inner =>
        simp only [Except.bind]
        rw [loop_blanks, loop_comma_zero, List.nil_append, pushToken]
        split_ifs with hafter
        · rfl
        · rw [pushLabel_blanks]
          rfl

theorem args_read : ∀ args : List Arg, ∃ r, ReadsItems r (stackArgs args) (CleanArgs args) ∧
    ∀ stack : List Item, compileLoop (printArgs args ++ [44]) [] false 0 stack =
      r.map (stack ++ ·)
  | [] => by
    refine ⟨.ok [], ⟨by simp [stackArgs, CleanArgs], ?_⟩, fun stack => ?_⟩
    · rintro x ⟨⟩
      rfl
    · rw [printArgs, List.nil_append, loop_comma_zero, pushToken, if_pos rfl]
      simp [Except.bind, Except.map, compileLoop]
  | [.mk before e after] => by
    obtain ⟨r, hr, hrun⟩ := Expr.reads e before after
    refine ⟨r, ⟨?_, ?_⟩, fun stack => ?_⟩
    · simpa [stackArgs, CleanArgs] using hr.iff
    · simpa [stackArgs] using hr.length
    · rw [printArgs, Arg.print, List.append_assoc, List.append_assoc, hrun]
      cases r <;> simp [Except.bind, Except.map, compileLoop]
  | .mk before e after :: b :: args => by
    obtain ⟨r, hr, hrun⟩ := Expr.reads e before after
    obtain ⟨r', hr', hrun'⟩ := args_read (b :: args)
    refine ⟨_, hr.append hr', fun stack => ?_⟩
    have hprint : printArgs (.mk before e after :: b :: args) ++ [44] =
        before.1 ++ (e.print ++ (after.1 ++ 44 :: (printArgs (b :: args) ++ [44]))) := by
      simp [printArgs, Arg.print]
    rw [hprint, hrun]
    simp only [hrun']
    cases r with
    | error e => rfl
    | ok x => cases r' <;> simp [Except.bind, Except.map]

end

theorem compile_reads (args : List Arg) :
    ReadsItems (compile (printArgs args)) (stackArgs args) (CleanArgs args) := by
  obtain ⟨r, hr, hrun⟩ := args_read args
  have hcompile : compile (printArgs args) = r := by
    rw [compile, hrun]
    cases r <;> rfl
  rw [hcompile]
  exact hr

/-- A decimal number is a literal. -/
def NumberLit.ofDecimal (s : JsString) (h : IsDecimal s) : NumberLit where
  text := s
  ne_nil := ne_nil_of_isDecimal h
  plain c hc := by
    have hchar := decimalChar_of_isDecimal h hc
    rw [Bool.eq_false_iff]
    intro hdelim
    simp only [isDelimiter, Bool.or_eq_true, decide_eq_true_eq] at hdelim
    rcases hdelim with ((((rfl | rfl) | rfl) | rfl) | rfl) | rfl <;> exact absurd hchar (by decide)
  trimmed := by
    apply trimBy_eq_self
    intro c hc
    have hchar := decimalChar_of_isDecimal h hc
    rw [Bool.eq_false_iff]
    intro hblank
    simp only [isBlank, Bool.or_eq_true, decide_eq_true_eq] at hblank
    rcases hblank with rfl | rfl <;> exact absurd hchar (by decide)
  number := (parseFloat_eq_toNumber h).2

/-- For all arguments, to any depth and with any blanks around them, what is written compiles to
the stack of the arguments exactly if no blanks stand behind an argument list, no string has a line
terminator, and all numbers are the same for `parseFloat` as for `Number`. -/
theorem compile_print_iff (args : List Arg) :
    compile (printArgs args) = .ok (stackArgs args) ↔ CleanArgs args :=
  (compile_reads args).iff

/-- The expression `or(ip4addr(1) ,port)`. -/
def blankBehindCall : Expr :=
  .call ⟨units "or", by decide +kernel⟩
    [.mk ⟨[], by simp⟩
        (.call ⟨units "ip4addr", by decide +kernel⟩
          [.mk ⟨[], by simp⟩ (.num (.ofDecimal (units "1") (by decide +kernel))) ⟨[], by simp⟩])
        ⟨[32], by simp [isBlank]⟩,
      .mk ⟨[], by simp⟩ (.name ⟨units "port", by decide +kernel⟩) ⟨[], by simp⟩]

/-- A blank behind the argument list of `ip4addr`. -/
theorem not_compile_print :
    ¬∀ args : List Arg, compile (printArgs args) = .ok (stackArgs args) := by
  intro h
  have hclean := (compile_reads _).iff.mp (h [.mk ⟨[], by simp⟩ blankBehindCall ⟨[], by simp⟩])
  simp [CleanArgs, blankBehindCall, Expr.Clean, Expr.isCall] at hclean

end NeonWrt.Luci.Validation

import FluentPattern.Backreference
import FluentPattern.Dialect.Fault
import FluentPattern.Dialect.Tree

/-!
# Tokens of a pattern

A pattern is cut from the left into tokens: atoms, the openings and closings of
groups, bars, quantities, and groups that only set flags. Where nothing of the
dialect can be read, the token is a fault and the rest is not read.

Main statements: `length_scan_le`, `tokens_cons`.
-/

namespace FluentPattern

/-- A token of a pattern. -/
inductive Token where
  /-- An atom. -/
  | atom (a : Atom)
  /-- A group that only sets flags for what follows it. -/
  | flags (flags : Flags)
  /-- The opening of a group. -/
  | opening (kind : GroupKind)
  /-- The closing of a group. -/
  | closing
  /-- A bar between branches. -/
  | bar
  /-- A quantity. -/
  | quantity (q : Quantity)
  /-- An opening brace that starts no quantity. -/
  | looseBrace
  /-- A place where nothing of the dialect can be read. -/
  | fault (f : Fault)
deriving DecidableEq

namespace Token

/-! ## Escapes -/

/-- What a `\` and a character outside the digits stand for. -/
def escaped (c : Char) : Token :=
  if c = 'n' then atom (.char '\n')
  else if c = 'r' then atom (.char '\r')
  else if c = 't' then atom (.char '\t')
  else if c = 's' then atom (.named .space)
  else if c = 'S' then atom (.named .notSpace)
  else if c = 'd' then atom (.named .digit)
  else if c.toNat < 128 && !c.isAlphanum && c != '<' && c != '>' then atom (.char c)
  else fault .unknownEscape

/-- Read what follows a `\`. -/
def scanEscape : Text → Token × Text
  | [] => (fault .loneBackslash, [])
  | c :: rest =>
    if c.isDigit then
      (atom (.groupAgain (Text.readDecimal (c :: Text.digits rest))), Text.afterDigits rest)
    else (escaped c, rest)

/-! ## Classes -/

/-- A member of a class as it is written. -/
inductive Member where
  | plain (c : Char)
  | escaped (c : Char)
deriving DecidableEq

/-- The members of a class up to its closing bracket, and what follows it. -/
def scanMembers : Text → Option (List Member × Text)
  | [] => none
  | ']' :: rest => some ([], rest)
  | ['\\'] => none
  | '\\' :: c :: rest => (scanMembers rest).map fun (members, rest) => (.escaped c :: members, rest)
  | c :: rest => (scanMembers rest).map fun (members, rest) => (.plain c :: members, rest)

/-- What a single member stands for. -/
def itemOf : Member → Except Fault ClassItem
  | .plain '[' => .error .classOperator
  | .plain c => .ok (.range c c)
  | .escaped c =>
    match Token.escaped c with
    | atom (.char c) => .ok (.range c c)
    | atom (.named n) => .ok (.named n)
    | _ => .error .unknownEscape

/-- The range between two members. -/
def rangeOf (first last : Member) : Except Fault ClassItem := do
  match ← itemOf first, ← itemOf last with
  | .range a _, .range b _ => pure (.range a b)
  | _, _ => .error .rangeOfClass

/-- Whether two members in a row are an operator on classes. -/
def isOperator : Member → Member → Bool
  | .plain a, .plain b => a == b && (a == '&' || a == '-' || a == '~')
  | _, _ => false

/-- The items of a class: `a-b` is a range, and every other member stands alone. -/
def itemsOf : List Member → Except Fault (List ClassItem)
  | [] => .ok []
  | [a] => do return [← itemOf a]
  | [a, b] => do
    if isOperator a b then .error .classOperator
    else return [← itemOf a, ← itemOf b]
  | a :: dash :: b :: rest =>
    if isOperator a dash || isOperator dash b then .error .classOperator
    else if dash = .plain '-' then do
      let item ← rangeOf a b
      return item :: (← itemsOf rest)
    else do
      let item ← itemOf a
      return item :: (← itemsOf (dash :: b :: rest))

/-- Whether the members of a class are negated, and what follows the mark. -/
def scanNegation : Text → Bool × Text
  | '^' :: rest => (true, rest)
  | rest => (false, rest)

/-- The members of a class, where a bracket that closes right away is a member. -/
def scanClassBody : Text → Option (List Member × Text)
  | ']' :: rest => (scanMembers rest).map fun (members, rest) => (.plain ']' :: members, rest)
  | rest => scanMembers rest

/-- Read what follows an opening bracket. -/
def scanClass (t : Text) : Token × Text :=
  match scanClassBody (scanNegation t).2 with
  | none => (fault .unclosedClass, [])
  | some (members, rest) =>
    match itemsOf members with
    | .ok items => (atom (.bracket ⟨(scanNegation t).1, items⟩), rest)
    | .error f => (fault f, [])

/-! ## Groups -/

/-- The flag of a letter that may stand inside a pattern. -/
def inlineFlag? (c : Char) : Option Flag :=
  (Flag.ofLetter? c).filter Flag.isInline

/-- Read the flags of a group, and the mark that ends them. -/
def scanFlags (set : Flags) : Text → Token × Text
  | ':' :: rest => (opening (.flagged set), rest)
  | ')' :: rest => (flags set, rest)
  | [] => (fault .unknownGroup, [])
  | c :: rest =>
    match inlineFlag? c with
    | some f => scanFlags (set.insert f) rest
    | none => (fault .unknownGroup, [])

/-- Read what follows an opening parenthesis. -/
def scanGroup : Text → Token × Text
  | '?' :: ':' :: rest => (opening .plain, rest)
  | '?' :: '=' :: rest => (opening .ahead, rest)
  | '?' :: '!' :: rest => (opening .notAhead, rest)
  | '?' :: ')' :: _ => (fault .unknownGroup, [])
  | '?' :: rest => scanFlags .empty rest
  | rest => (opening .capture, rest)

/-! ## Quantities -/

/-- A quantity with the mark that may follow it: `?` repeats as little as possible. -/
def scanReluctance (least : Nat) (most : Option Nat) : Text → Token × Text
  | '?' :: rest => (quantity ⟨least, most, false⟩, rest)
  | rest => (quantity ⟨least, most, true⟩, rest)

/-- Read the upper bound of a quantity in braces; `whole` is what follows the brace. -/
def scanUpperBound (least : Nat) (whole rest : Text) : Token × Text :=
  match Text.afterDigits rest with
  | '}' :: more =>
    if (Text.digits rest).isEmpty then scanReluctance least none more
    else scanReluctance least (some (Text.readDecimal (Text.digits rest))) more
  | _ => (looseBrace, whole)

/-- Read what follows an opening brace. -/
def scanBounds (t : Text) : Token × Text :=
  if (Text.digits t).isEmpty then (looseBrace, t)
  else
    match Text.afterDigits t with
    | '}' :: rest =>
      let n := Text.readDecimal (Text.digits t)
      scanReluctance n (some n) rest
    | ',' :: rest => scanUpperBound (Text.readDecimal (Text.digits t)) t rest
    | _ => (looseBrace, t)

/-! ## What is left is no longer than what was there -/

theorem length_scanEscape_le (t : Text) : (scanEscape t).2.length ≤ t.length := by
  cases t with
  | nil => exact Nat.le_refl _
  | cons c rest =>
    have := Text.length_afterDigits_le rest
    rw [scanEscape]
    split
    · simp only [List.length_cons]
      omega
    · simp

theorem length_of_scanMembers {t rest : Text} {members : List Member}
    (h : scanMembers t = some (members, rest)) : rest.length < t.length := by
  fun_induction scanMembers t generalizing members rest with
  | case1 => simp at h
  | case2 r =>
    simp only [Option.some.injEq, Prod.mk.injEq] at h
    simp [h.2]
  | case3 => simp at h
  | case4 c r ih =>
    obtain ⟨⟨_, _⟩, hp, he⟩ := Option.map_eq_some_iff.1 h
    simp only [Prod.mk.injEq] at he
    obtain ⟨rfl, rfl⟩ := he
    have := ih hp
    simp only [List.length_cons]
    omega
  | case5 c r _ _ _ ih =>
    obtain ⟨⟨_, _⟩, hp, he⟩ := Option.map_eq_some_iff.1 h
    simp only [Prod.mk.injEq] at he
    obtain ⟨rfl, rfl⟩ := he
    have := ih hp
    simp only [List.length_cons]
    omega

theorem length_scanNegation_le (t : Text) : (scanNegation t).2.length ≤ t.length := by
  unfold scanNegation
  split <;> simp

theorem length_of_scanClassBody {t rest : Text} {members : List Member}
    (h : scanClassBody t = some (members, rest)) : rest.length < t.length := by
  unfold scanClassBody at h
  split at h
  · obtain ⟨⟨_, _⟩, hp, he⟩ := Option.map_eq_some_iff.1 h
    simp only [Prod.mk.injEq] at he
    obtain ⟨rfl, rfl⟩ := he
    have := length_of_scanMembers hp
    simp only [List.length_cons]
    omega
  · exact length_of_scanMembers h

theorem length_scanClass_le (t : Text) : (scanClass t).2.length ≤ t.length := by
  have hn := length_scanNegation_le t
  unfold scanClass
  split
  · exact Nat.zero_le _
  · rename_i members rest h
    have := length_of_scanClassBody h
    split <;> simp only [List.length_nil] <;> omega

theorem length_scanFlags_le (set : Flags) (t : Text) : (scanFlags set t).2.length ≤ t.length := by
  fun_induction scanFlags set t with
  | case1 set rest => simp
  | case2 set rest => simp
  | case3 set => simp
  | case4 set c rest _ _ f hf ih =>
    simp only [List.length_cons]
    omega
  | case5 set c rest _ _ hf => simp

theorem length_scanGroup_le (t : Text) : (scanGroup t).2.length ≤ t.length := by
  unfold scanGroup
  split <;> simp only [List.length_cons, List.length_nil, Nat.le_refl, Nat.zero_le] <;> try omega
  rename_i rest _ _ _ _
  have := length_scanFlags_le .empty rest
  omega

theorem length_scanReluctance_le (least : Nat) (most : Option Nat) (t : Text) :
    (scanReluctance least most t).2.length ≤ t.length := by
  unfold scanReluctance
  split <;> simp

theorem length_scanUpperBound_le (least : Nat) {whole rest : Text}
    (h : rest.length ≤ whole.length) :
    (scanUpperBound least whole rest).2.length ≤ whole.length := by
  have hd := Text.length_afterDigits_le rest
  unfold scanUpperBound
  split
  · rename_i more hm
    rw [hm, List.length_cons] at hd
    split
    · have := length_scanReluctance_le least none more
      omega
    · have := length_scanReluctance_le least (some (Text.readDecimal (Text.digits rest))) more
      omega
  · exact Nat.le_refl _

theorem length_scanBounds_le (t : Text) : (scanBounds t).2.length ≤ t.length := by
  have hd := Text.length_afterDigits_le t
  unfold scanBounds
  split
  · exact Nat.le_refl _
  split
  · rename_i rest hr
    rw [hr, List.length_cons] at hd
    have := length_scanReluctance_le (Text.readDecimal (Text.digits t))
      (some (Text.readDecimal (Text.digits t))) rest
    dsimp only
    omega
  · rename_i rest hr
    rw [hr, List.length_cons] at hd
    exact length_scanUpperBound_le _ (by omega)
  · exact Nat.le_refl _

/-! ## All tokens -/

/-- The token that starts with a character, and what follows it. -/
def scan (c : Char) (rest : Text) : Token × Text :=
  match c with
  | '\\' => scanEscape rest
  | '[' => scanClass rest
  | '(' => scanGroup rest
  | ')' => (closing, rest)
  | '|' => (bar, rest)
  | '.' => (atom .any, rest)
  | '^' => (atom .start, rest)
  | '$' => (atom .stop, rest)
  | '*' => scanReluctance 0 none rest
  | '+' => scanReluctance 1 none rest
  | '?' => scanReluctance 0 (some 1) rest
  | '{' => scanBounds rest
  | c => (atom (.char c), rest)

/-- A token takes its first character and no text is added. -/
theorem length_scan_le (c : Char) (rest : Text) : (scan c rest).2.length ≤ rest.length := by
  unfold scan
  split
  · exact length_scanEscape_le rest
  · exact length_scanClass_le rest
  · exact length_scanGroup_le rest
  · exact Nat.le_refl _
  · exact Nat.le_refl _
  · exact Nat.le_refl _
  · exact Nat.le_refl _
  · exact Nat.le_refl _
  · exact length_scanReluctance_le _ _ rest
  · exact length_scanReluctance_le _ _ rest
  · exact length_scanReluctance_le _ _ rest
  · exact length_scanBounds_le rest
  · exact Nat.le_refl _

end Token

/-- The tokens of a pattern, the first one first. -/
def tokens : Text → List Token
  | [] => []
  | c :: rest => (Token.scan c rest).1 :: tokens (Token.scan c rest).2
termination_by t => t.length
decreasing_by
  have := Token.length_scan_le c rest
  simp only [List.length_cons]
  omega

/-- The empty pattern has no token. -/
@[simp] theorem tokens_nil : tokens [] = [] := by
  rw [tokens]

/-- The tokens are cut off one by one. -/
theorem tokens_cons (c : Char) (rest : Text) :
    tokens (c :: rest) = (Token.scan c rest).1 :: tokens (Token.scan c rest).2 := by
  rw [tokens]

end FluentPattern

import FluentPattern.Dialect.Reading
import FluentPattern.Proofs.Lexeme

/-!
# The grammar of written patterns

`Spells t bs` says that the text `t` is derived from the grammar of the dialect and
has the branches `bs`. The grammar has characters, `.`, `^`, `$`, escapes, closed
classes, backreferences, groups of every kind, bars, and quantities in braces after
groups. It says nothing about the order of bounds or about which groups exist.

Main statements: `Spells.append_bar` (branches are joined by bars), `Spells.append`,
`Spells.head?_ne` (no text starts with a mark that belongs to the text before it).
-/

namespace FluentPattern

/-! ## How the parts are written -/

/-- What a character stands for outside classes where it is a piece of its own. -/
def Atom.ofChar? : Char → Option Atom
  | '.' => some .any
  | '^' => some .start
  | '$' => some .stop
  | '\\' | '[' | '(' | ')' | '|' | '*' | '+' | '?' | '{' => none
  | c => some (.char c)

/-- The opening of a group. -/
def GroupKind.text : GroupKind → Text
  | capture => ['(']
  | plain => ['(', '?', ':']
  | flagged fs => '(' :: '?' :: (fs.inlineCode ++ [':'])
  | ahead => ['(', '?', '=']
  | notAhead => ['(', '?', '!']

/-- Whether a group can be written: one that sets flags needs a flag, and only flags
that have a place inside a pattern. -/
def GroupKind.IsWritable : GroupKind → Prop
  | flagged fs => fs.inlineCode ≠ [] ∧ fs.everyMatch = false
  | _ => True

/-- A quantity as it is written after a group. -/
def Quantity.text (q : Quantity) : Text :=
  '{' :: (Text.decimal q.least ++ ',' :: ((q.most.elim [] Text.decimal) ++
    '}' :: if q.greedy then [] else ['?']))

/-- A quantity that may be missing as it is written. -/
def Quantity.suffix : Option Quantity → Text
  | none => []
  | some q => q.text

/-- A piece with a quantity that may be missing. -/
def Piece.times : Option Quantity → Piece → Piece
  | none, p => p
  | some q, p => .repeated q p

namespace Token

/-- A member of a class as it is written. -/
def Member.text : Member → Text
  | plain c => [c]
  | escaped c => ['\\', c]

/-- Whether a member is written so that it closes, opens and negates nothing. -/
def Member.IsWritable : Member → Prop
  | plain c => c ≠ '\\' ∧ c ≠ ']' ∧ c ≠ '[' ∧ c ≠ '^'
  | escaped c => c.isDigit = false

/-- The members of a class as they are written. -/
def membersText (ms : List Member) : Text :=
  ms.flatMap Member.text

end Token

/-- A class as it is written, and what follows it. -/
def classText (negated : Bool) (ms : List Token.Member) (rest : Text) : Text :=
  '[' :: ((if negated then ['^'] else []) ++ (Token.membersText ms ++ ']' :: rest))

theorem classText_append (negated : Bool) (ms : List Token.Member) (s t : Text) :
    classText negated ms s ++ t = classText negated ms (s ++ t) := by
  simp only [classText, List.cons_append, List.append_assoc]

/-! ## The grammar -/

/-- The text is derived from the grammar of the dialect and has the branches. -/
inductive Spells : Text → Branches → Prop
  | nil : Spells [] [[]]
  | bar {t : Text} {bs : Branches} : Spells t bs → Spells ('|' :: t) ([] :: bs)
  | single {c : Char} {a : Atom} {t : Text} {b : Branch} {bs : Branches} :
    Atom.ofChar? c = some a → Spells t (b :: bs) → Spells (c :: t) ((.atom a :: b) :: bs)
  | escape {c : Char} {a : Atom} {t : Text} {b : Branch} {bs : Branches} :
    c.isDigit = false → Token.escaped c = .atom a → Spells t (b :: bs) →
      Spells ('\\' :: c :: t) ((.atom a :: b) :: bs)
  | reference (n : Nat) {t : Text} {b : Branch} {bs : Branches} :
    t.startsWithDigit = false → Spells t (b :: bs) →
      Spells ('\\' :: (Text.decimal n ++ t)) ((.atom (.groupAgain n) :: b) :: bs)
  | bracket (negated : Bool) {ms : List Token.Member} {items : List ClassItem} {t : Text}
      {b : Branch} {bs : Branches} :
    ms ≠ [] → (∀ m ∈ ms, m.IsWritable) → Token.itemsOf ms = .ok items → Spells t (b :: bs) →
      Spells (classText negated ms t) ((.atom (.bracket ⟨negated, items⟩) :: b) :: bs)
  | group (k : GroupKind) (q : Option Quantity) {s t : Text} {cs : Branches} {b : Branch}
      {bs : Branches} :
    k.IsWritable → Spells s cs → Spells t (b :: bs) →
      Spells (k.text ++ (s ++ ')' :: (Quantity.suffix q ++ t)))
        ((Piece.times q (.group k cs) :: b) :: bs)

theorem Spells.ne_nil {t : Text} {bs : Branches} (h : Spells t bs) : bs ≠ [] := by
  cases h <;> exact List.cons_ne_nil _ _

theorem GroupKind.exists_text (k : GroupKind) : ∃ t, k.text = '(' :: t := by
  cases k <;> exact ⟨_, rfl⟩

/-- No text of the grammar starts with a `?`, so it never changes what stands before it. -/
theorem Spells.head?_ne {t : Text} {bs : Branches} (h : Spells t bs) : t.head? ≠ some '?' := by
  cases h with
  | single hc _ =>
    intro hq
    obtain rfl := Option.some.inj hq
    simp [Atom.ofChar?] at hc
  | group k _ _ _ _ =>
    obtain ⟨u, hu⟩ := k.exists_text
    rw [hu]
    simp
  | _ => simp [classText]

theorem Spells.head?_append_ne {s : Text} {cs : Branches} (h : Spells s cs) {t : Text}
    (ht : t.head? ≠ some '?') : (s ++ t).head? ≠ some '?' := by
  cases s with
  | nil => exact ht
  | cons c s => exact h.head?_ne

/-- Branches joined by a bar. -/
theorem Spells.append_bar {s t : Text} {bs cs : Branches} (hs : Spells s bs) (ht : Spells t cs) :
    Spells (s ++ '|' :: t) (bs ++ cs) := by
  induction hs with
  | nil => exact .bar ht
  | bar _ ih => exact .bar ih
  | single ha _ ih => exact .single ha ih
  | escape hc ha _ ih => exact .escape hc ha ih
  | reference n hd _ ih =>
    rw [List.cons_append, List.append_assoc]
    refine .reference n ?_ ih
    rename_i u _ _ _
    cases u with
    | nil => rfl
    | cons c u => exact hd
  | bracket negated hne hm hi _ ih =>
    rw [classText_append]
    exact .bracket negated hne hm hi ih
  | group k q hk hi _ _ ih =>
    rw [List.append_assoc, List.append_assoc, List.cons_append, List.append_assoc]
    exact .group k q hk hi ih

/-- A row goes on in what follows it, unless that is a digit. -/
theorem Spells.append {s t : Text} {b c : Branch} {cs : Branches} (hs : Spells s [b])
    (ht : Spells t (c :: cs)) (hd : t.startsWithDigit = false) :
    Spells (s ++ t) ((b ++ c) :: cs) := by
  generalize hbs : [b] = bs at hs
  induction hs generalizing b with
  | nil =>
    obtain rfl := (List.cons.inj hbs).1
    exact ht
  | bar h _ => exact absurd (List.cons.inj hbs).2.symm h.ne_nil
  | single ha _ ih =>
    obtain ⟨rfl, rfl⟩ := List.cons.inj hbs
    exact .single ha (ih rfl)
  | escape hc ha _ ih =>
    obtain ⟨rfl, rfl⟩ := List.cons.inj hbs
    exact .escape hc ha (ih rfl)
  | @reference n u _ _ hu _ ih =>
    obtain ⟨rfl, rfl⟩ := List.cons.inj hbs
    rw [List.cons_append, List.append_assoc]
    refine .reference n ?_ (ih rfl)
    cases u with
    | nil => exact hd
    | cons c u => exact hu
  | bracket negated hne hm hi _ ih =>
    obtain ⟨rfl, rfl⟩ := List.cons.inj hbs
    rw [classText_append]
    exact .bracket negated hne hm hi (ih rfl)
  | group k q hk hi _ _ ih =>
    obtain ⟨rfl, rfl⟩ := List.cons.inj hbs
    rw [List.append_assoc, List.append_assoc, List.cons_append, List.append_assoc]
    exact .group k q hk hi (ih rfl)

end FluentPattern

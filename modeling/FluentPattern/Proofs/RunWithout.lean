import FluentPattern.Proofs.Matching.Answers
import FluentPattern.Proofs.Matching.LongestRun
import FluentPattern.Proofs.Matching.Units
import Mathlib.Data.List.TakeWhile

/-!
# Runs without a text

A run without a text of one character is a repeated class, and it is the longest run of other
characters. For a longer text one assertion stands in front of a run of any characters. It looks
at the start of the run only: a match does not begin with the text, and it contains the text if
the line that it runs along does so further on.

Main statements: `Text.head?_ways_runRow` (how far a run goes), `Call.find_runWithout`,
`Call.infix_text_iff_of_finds`.
-/

namespace FluentPattern

/-! ## Runs -/

/-- The least number of characters of a run without a text. -/
def TextWord.runLeast? : TextWord → Option Nat
  | anythingBut => some 0
  | somethingBut => some 1
  | _ => none

/-- Whether a call sets a flag, and not the one that ignores case. -/
def Call.KeepsCase (c : Call) : Prop :=
  ∃ f : Flag, f ≠ .ignoreCase ∧ c.moves = [.flag f]

namespace Text

/-- Whether a run without a text may pass a character: any other one if the text is one
character, and any but a line feed if it is longer. -/
def passes (t : Text) (c : Char) : Bool :=
  match t with
  | [d] => c ≠ d
  | _ => c ≠ '\n'

/-- How a text begins that a run without `t` goes along. -/
def run (t rest : Text) : Text :=
  rest.takeWhile t.passes

/-- Whether a run without `t` may begin where some text is left: the run is long enough, and
what is left does not begin with `t` if that is longer than one character. -/
def RunsFrom (t : Text) (least : Nat) (rest : Text) : Prop :=
  least ≤ (t.run rest).length ∧ (1 < t.length → ¬t <+: rest)

instance (t : Text) (least : Nat) (rest : Text) : Decidable (t.RunsFrom least rest) :=
  inferInstanceAs (Decidable (_ ∧ _))

/-- A run contains the text only behind its first character, and only if the text is longer than
one character. -/
theorem RunsFrom.infix_run_iff {t : Text} (ht : t ≠ []) {least : Nat} {rest : Text}
    (h : t.RunsFrom least rest) : t <:+: t.run rest ↔ 1 < t.length ∧ t <:+: (t.run rest).tail := by
  have hpasses : ∀ c ∈ t.run rest, t.passes c = true := fun c hc => List.mem_takeWhile_imp hc
  have hprefix : t.run rest <+: rest := List.takeWhile_prefix _
  rcases t with _ | ⟨d, _ | ⟨e, t⟩⟩
  · exact absurd rfl ht
  · refine ⟨fun hin => ?_, fun hin => absurd hin.1 (Nat.lt_irrefl 1)⟩
    have hd := hpasses d (hin.subset List.mem_cons_self)
    simp [passes] at hd
  · have hlong : 1 < (d :: e :: t).length := Nat.succ_lt_succ (Nat.succ_pos _)
    cases hrun : run (d :: e :: t) rest with
    | nil => simp
    | cons c cs =>
      have hnot : ¬(d :: e :: t) <+: c :: cs := fun hp => h.2 hlong (hp.trans (hrun ▸ hprefix))
      rw [List.infix_cons_iff, List.tail_cons]
      simp [hnot]

end Text

/-! ## The built run -/

/-- Exactly one of a text. -/
def Fragment.once (t : Text) : Fragment :=
  { min := some 1, max := some 1, content := some (.text t.escapeOutside) }

/-- The content of a run without a text. -/
def Text.runContent : Text → Content
  | [d] => .noneOf (escapeInside [d])
  | _ => .anyChar

/-- The assertion that a text does not come next. -/
def Segment.without (t : Text) : Segment :=
  ⟨.notAhead, [[(Fragment.once t).segmentOf (.text t.escapeOutside)].flatMap Segment.text]⟩

/-- The segments of a run without a text. -/
def Text.runSegments (least : Nat) (t : Text) : List Segment :=
  (if 1 < t.length then [.without t] else []) ++
    [({ min := some least } : Fragment).segmentOf t.runContent]

/-- Flags leave everything else alone. -/
theorem Call.applyAll_keepsCase {fs : List Call} (hfs : ∀ c ∈ fs, c.KeepsCase) (b : Builder) :
    ∃ flags : Flags, flags.ignoreCase = b.flags.ignoreCase ∧
      (applyAll b fs).value = { b with flags := flags } := by
  induction fs generalizing b with
  | nil => exact ⟨b.flags, rfl, rfl⟩
  | cons c fs ih =>
    obtain ⟨⟨f, hf, hmoves⟩, hfs⟩ := List.forall_mem_cons.1 hfs
    have hc : (c.apply b).value = b.withFlag f := by rw [value_apply, hmoves]; rfl
    obtain ⟨flags, hflags, hrest⟩ := ih hfs (c.apply b).value
    rw [hc] at hflags hrest
    refine ⟨flags, hflags.trans ?_, ?_⟩
    · cases f with
      | ignoreCase => exact absurd rfl hf
      | _ => rfl
    · show (applyAll (c.apply b).value fs).value = _
      rw [hc]
      exact hrest

theorem Call.build_runWithout {w : TextWord} {least : Nat} (hw : w.runLeast? = some least)
    {t : Text} (ht : t ≠ []) {fs : List Call} (hfs : ∀ c ∈ fs, c.KeepsCase) :
    ∃ flags : Flags, flags.ignoreCase = false ∧ (build (.text w t :: fs)).value =
      ⟨(t.runSegments least).flatMap Segment.text, flags, 0, decide (1 < t.length)⟩ := by
  have hmoves : ((Call.text w t).apply .empty).value =
      Move.applyAll .empty (Move.runWithout least t) := by
    rw [value_apply]
    cases w <;> cases hw <;> rfl
  obtain ⟨flags, hflags, hvalue⟩ :=
    applyAll_keepsCase hfs (Move.applyAll .empty (Move.runWithout least t))
  have hbuild : (build (.text w t :: fs)).value =
      (applyAll (Move.applyAll .empty (Move.runWithout least t)) fs).value.build.value := by
    rw [← hmoves]
    rfl
  rw [hbuild, hvalue]
  rcases t with _ | ⟨c, _ | ⟨d, t⟩⟩
  · exact absurd rfl ht
  · exact ⟨flags, hflags, rfl⟩
  · exact ⟨flags, hflags, rfl⟩

/-! ## The tree of a run -/

namespace Text

/-- The atom of a run without a text. -/
def runAtom : Text → Atom
  | [d] => .bracket ⟨true, [.range d d]⟩
  | _ => .any

/-- The pieces of a run without a text. -/
def runRow (least : Nat) (t : Text) : Branch :=
  (if 1 < t.length then [.group .notAhead [[(Fragment.once t).piece t.row]]] else []) ++
    [({ min := some least } : Fragment).piece [.atom t.runAtom]]

theorem spells_runContent (t : Text) : Spells t.runContent.literal [[.atom t.runAtom]] := by
  rcases t with _ | ⟨c, _ | ⟨d, t⟩⟩
  · exact .single rfl .nil
  · have hclass := Text.spells_class true (List.cons_ne_nil c [])
    rwa [classText, Token.membersText_map_ofChar] at hclass
  · exact .single rfl .nil

theorem spells_runSegments (least : Nat) (t : Text) :
    Spells ((t.runSegments least).flatMap Segment.text) [t.runRow least] := by
  have hrun := ({ min := some least } : Fragment).spells_append t.spells_runContent .nil
  have honce := (Fragment.once t).spells_append (c := .text t.escapeOutside)
    (spells_escapeOutside t) .nil
  rw [List.append_nil] at hrun
  rw [runSegments, runRow, List.flatMap_append, List.flatMap_singleton]
  split
  · rw [List.flatMap_singleton]
    exact Segment.spells_append (s := .without t) (List.cons_ne_nil _ _) (.cons honce .nil) hrun
  · exact hrun

end Text

/-! ## The ways of a run -/

/-- Behind an assertion that something does not match, the ways go on if it has none. -/
theorem Ways.seq_look_true (v w : Ways) (p : Nat) (r : Record) :
    seq (look true v) w p r = if (v p r).isEmpty then w p r else [] := by
  unfold seq look
  cases v p r with
  | nil => exact List.flatMap_singleton _ _
  | cons x xs => rfl

namespace Text

/-- The characters that a run without a text may pass. -/
def runSet : Text → CharSet
  | [d] => ⟨[.range d d], false, true⟩
  | _ => .notLineFeed

theorem contains_runSet (t : Text) : t.runSet.contains = t.passes := by
  funext c
  rw [Bool.eq_iff_iff]
  rcases t with _ | ⟨d, _ | ⟨e, t⟩⟩
  · simp [runSet, passes, CharSet.contains_notLineFeed]
  · exact (CharSet.contains_ranges [d] true c).trans (by simp [passes])
  · simp [runSet, passes, CharSet.contains_notLineFeed]

variable (h : Haystack) (engine : Engine) {flags : Flags} (hflags : flags.ignoreCase = false)
  (groups : Nat) (t : Text)

include hflags

theorem ways_runAtom :
    (Branch.lower engine flags groups [.atom t.runAtom]).node.ways h = .char h t.runSet := by
  refine Atom.ways_row h engine groups ?_
  rcases t with _ | ⟨d, _ | ⟨e, t⟩⟩
  · rfl
  · rw [runAtom, Atom.node, hflags, runSet]
  · rfl

/-- A text has a way exactly where the haystack goes on with it. -/
theorem exists_mem_ways_once {p : Nat} (hp : p ≤ h.size) (r : Record) :
    (∃ v, v ∈ (Branch.lower engine flags groups [(Fragment.once t).piece t.row]).node.ways h p r) ↔
      t <+: h.toList.drop p := by
  rw [Fragment.ways_piece (q := ⟨1, some 1, true⟩) rfl rfl, Node.ways_repeated_once]
  exact (t.reads_row h engine groups hflags).exists_mem_iff hp r

/-- What is repeated goes to the end of the run, if the run is long enough. -/
theorem head?_ways_runPiece (least : Nat) {p : Nat} (hp : p ≤ h.size) (r : Record) :
    ((Branch.lower engine flags groups
        [({ min := some least } : Fragment).piece [.atom t.runAtom]]).node.ways h p r).head? =
      if least ≤ (t.run (h.toList.drop p)).length then
        some ⟨p + (t.run (h.toList.drop p)).length, r⟩
      else none := by
  rw [Fragment.ways_piece (q := ⟨least, none, true⟩) rfl rfl,
    Node.head?_repeated_char h t.runSet (t.ways_runAtom h engine hflags groups) engine least hp,
    Haystack.run, contains_runSet]
  rfl

/-- The first way of a run without a text goes to the end of the run, if the run may begin. -/
theorem head?_ways_runRow (least : Nat) {p : Nat} (hp : p ≤ h.size) (r : Record) :
    ((Branch.lower engine flags groups (t.runRow least)).node.ways h p r).head? =
      if t.RunsFrom least (h.toList.drop p) then
        some ⟨p + (t.run (h.toList.drop p)).length, r⟩
      else none := by
  rw [runRow]
  split
  · rename_i hlong
    have hruns : t.RunsFrom least (h.toList.drop p) ↔
        least ≤ (t.run (h.toList.drop p)).length ∧ ¬t <+: h.toList.drop p :=
      and_congr_right' (imp_iff_right hlong)
    have honce := t.exists_mem_ways_once h engine hflags groups hp r
    rw [List.singleton_append, Branch.ways_lower_notAhead, Ways.seq_look_true]
    simp only [hruns]
    by_cases hpre : t <+: h.toList.drop p
    · rw [List.isEmpty_eq_false_iff_exists_mem.2 (honce.2 hpre), if_neg Bool.false_ne_true,
        if_neg fun hboth => hboth.2 hpre]
      rfl
    · have hnone := List.eq_nil_iff_forall_not_mem.2 fun v hv => hpre (honce.1 ⟨v, hv⟩)
      rw [hnone, List.isEmpty_nil, if_pos rfl, t.head?_ways_runPiece h engine hflags _ least hp]
      simp only [hpre, not_false_eq_true, and_true]
  · rename_i hshort
    have hruns : t.RunsFrom least (h.toList.drop p) ↔
        least ≤ (t.run (h.toList.drop p)).length :=
      and_iff_left fun hlong => absurd hlong hshort
    simp only [hruns]
    exact t.head?_ways_runPiece h engine hflags groups least hp r

end Text

/-! ## What a run matches -/

namespace Text

/-- The match of a run without `t` that starts at a position. -/
def runAt (t h : Text) (p : Nat) : Match :=
  .ofSpan h ⟨p, p + (t.run (h.drop p)).length⟩

theorem text_runAt (t h : Text) (p : Nat) : (t.runAt h p).text = t.run (h.drop p) := by
  have hprefix : t.run (h.drop p) <+: h.drop p := List.takeWhile_prefix _
  show (h.take (p + (t.run (h.drop p)).length)).drop p = _
  rw [List.drop_take, Nat.add_sub_cancel_left]
  exact (List.prefix_iff_eq_take.1 hprefix).symm

end Text

namespace Call

section

variable {w : TextWord} {least : Nat} (hw : w.runLeast? = some least) {t : Text} (ht : t ≠ [])
  {fs : List Call} (hfs : ∀ c ∈ fs, c.KeepsCase) {c : Compiled}
  (hc : (build (.text w t :: fs)).value.compile.value = .ok c) {h : Text}

include hw ht hfs

theorem spells_runWithout :
    Spells (build (.text w t :: fs)).value.literal [t.runRow least] ∧
      (build (.text w t :: fs)).value.scope.ignoreCase = false := by
  obtain ⟨flags, hflags, hbuild⟩ := build_runWithout hw ht hfs
  rw [hbuild]
  exact ⟨t.spells_runSegments least, Built.ignoreCase_scope hflags⟩

include hc

/-- What a run without a text finds is the run from the first position where one may begin. -/
theorem find_runWithout {r : Option Match} (hr : c.find h = .ok r) :
    r = firstFrom (fun p => if t.RunsFrom least (h.drop p) then some (t.runAt h p) else none) 0
      (h.length + 1) := by
  obtain ⟨hrow, hflags⟩ := spells_runWithout hw ht hfs
  rw [find_eq hrow hc hr, Ways.leftmost, map_firstFrom]
  refine firstFrom_congr fun p _ hp => ?_
  rw [Ways.best, t.head?_ways_runRow h.toArray _ hflags 0 least (by rw [List.size_toArray]; omega)]
  split <;> rfl

/-- Every match of a run without a text, also of those that `g` counts, is the longest run from
where it starts, and a run may begin there. It contains the text if and only if the text is
longer than one character and stands behind the first character of the match. -/
theorem infix_text_iff_of_finds {x : Match} (hx : c.Finds h x) :
    ∃ p, p ≤ h.length ∧ x = t.runAt h p ∧ t.RunsFrom least (h.drop p) ∧
      x.text = t.run (h.drop p) ∧ (t <:+: x.text ↔ 1 < t.length ∧ t <:+: x.text.tail) := by
  obtain ⟨hrow, hflags⟩ := spells_runWithout hw ht hfs
  obtain ⟨p, v, hp, hv, rfl⟩ := exists_way_of_finds hrow hc hx
  rw [t.head?_ways_runRow h.toArray _ hflags 0 least (by rwa [List.size_toArray])] at hv
  split at hv
  · rename_i hruns
    obtain rfl := Option.some.inj hv
    have htext := t.text_runAt h p
    refine ⟨p, hp, rfl, hruns, htext, ?_⟩
    exact htext.symm ▸ hruns.infix_run_iff ht
  · cases hv

end

/-- All matches in a text that begins with the excluded one. -/
theorem infix_text_iff_of_finds_second :
    let h : Text := ['a', 'b']
    ∃ c, (build [.text .somethingBut h, .word .everyMatch]).value.compile.value = .ok c ∧
      ∃ x, c.Finds h x ∧ x.text = ['b'] ∧ ¬h <:+: x.text := by
  intro h
  obtain ⟨c, hc, hall⟩ := Built.exists_compiled
    (p := (build [.text .somethingBut h, .word .everyMatch]).value)
    (f := fun c => c.findAll h) (a := .ok [⟨1, 2, ['b']⟩]) (by decide +kernel)
  have hx : c.Finds h ⟨1, 2, ['b']⟩ := .inr ⟨_, hall, List.mem_singleton_self _⟩
  have hflag : ∀ f ∈ [Call.word .everyMatch], f.KeepsCase :=
    List.forall_mem_singleton.2 ⟨.everyMatch, by decide, rfl⟩
  obtain ⟨p, -, -, -, -, hin⟩ := infix_text_iff_of_finds (w := .somethingBut) rfl
    (List.cons_ne_nil _ _) hflag hc hx
  exact ⟨c, hc, _, hx, rfl, fun hinfix => absurd (hin.1 hinfix).2 (by decide)⟩

/-- A run without a text of two characters that contains the text behind its first character. -/
theorem exists_find_infix_anythingBut :
    ∃ c, (build [.text .anythingBut ['a', 'b']]).value.compile.value = .ok c ∧
      ∃ x, c.find ['x', 'a', 'b'] = .ok (some x) ∧ ['a', 'b'] <:+: x.text := by
  obtain ⟨c, hc, hfind⟩ := Built.exists_compiled
    (p := (build [.text .anythingBut ['a', 'b']]).value)
    (f := fun c => c.find ['x', 'a', 'b']) (a := .ok (some ⟨0, 3, ['x', 'a', 'b']⟩))
    (by decide +kernel)
  exact ⟨c, hc, _, hfind, List.suffix_cons _ _ |>.isInfix⟩

end Call

end FluentPattern

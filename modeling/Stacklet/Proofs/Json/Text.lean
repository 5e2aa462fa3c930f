import Stacklet.Json.Writer
import Stacklet.Proofs.Json.Scalars

/-!
# Written text is read back

The compact form of a value is read character by character to the same value. A text that is being
written stands for a draft all the time: it *makes* the draft once a word at its end has ended, and it
*rests* at the draft if no word is open there. Punctuation, words and strings each take a text from one
draft to the next (`Makes.push`, `Rests.word`, `Rests.text`), and a value takes it to the draft to which
the value has been added (`Rests.value`).
-/

namespace Stacklet.Json

open Token (Scan)

/-! ## Strings -/

/-- The characters that stand for a character inside a string. -/
def escape (c : Char) : List Char := (escapeChar "" c).toList

theorem toList_escapeChar (out : String) (c : Char) :
    (escapeChar out c).toList = out.toList ++ escape c := by
  unfold escape escapeChar
  split
  case h_8 => split <;> simp
  all_goals simp

theorem toList_foldl_escapeChar (cs : List Char) (out : String) :
    (cs.foldl escapeChar out).toList = out.toList ++ cs.flatMap escape := by
  induction cs generalizing out with
  | nil => simp
  | cons c cs ih => simp [ih, toList_escapeChar]

theorem toList_writeText (out text : String) :
    (writeText out text).toList = out.toList ++ '"' :: (text.toList.flatMap escape ++ ['"']) := by
  simp [writeText, String.foldl_eq_foldl_toList, toList_foldl_escapeChar]

/-- How a character may stand inside a string: as it is, after a backslash, or as its number. -/
inductive Escaped : Char → List Char → Prop where
  | plain {c : Char} (quote : c ≠ '"') (backslash : c ≠ '\\') (printed : ¬ c < ' ') : Escaped c [c]
  | short {c e : Char} (named : Token.escape? e = some c) : Escaped c ['\\', e]
  | number {c : Char} (control : c < ' ') :
      Escaped c ['\\', 'u', '0', '0', hexDigit (c.toNat / 16), hexDigit (c.toNat % 16)]

theorem escaped_escape (c : Char) : Escaped c (escape c) := by
  unfold escape escapeChar
  split
  case h_8 quote backslash _ _ _ _ _ =>
    split
    · next control => simpa using Escaped.number control
    · next printed => simpa using Escaped.plain quote backslash printed
  all_goals exact .short rfl

theorem hexDigit?_hexDigit : ∀ n < 16, Token.hexDigit? (hexDigit n) = some n := by decide

/-- The number of a control character stands for it. -/
theorem hex4?_control {c : Char} (control : c < ' ') :
    Token.hex4? '0' '0' (hexDigit (c.toNat / 16)) (hexDigit (c.toNat % 16)) = some c.toNat := by
  have bound : c.toNat < 32 := control
  have zero : Token.hexDigit? '0' = some 0 := rfl
  rw [Token.hex4?, zero, hexDigit?_hexDigit _ (by omega), hexDigit?_hexDigit _ (by omega)]
  simp
  omega

/-- In an escaped text, every `\u` stands before the number of a character. -/
theorem hex4?_of_flatMap_escape {cs rest : List Char} {a b c d : Char}
    (h : cs.flatMap escape = '\\' :: 'u' :: a :: b :: c :: d :: rest) : ∃ u, Token.hex4? a b c d = some u := by
  cases cs with
  | nil => cases h
  | cons x cs =>
    rw [List.flatMap_cons] at h
    generalize hx : escape x = w at h
    have escaped := hx ▸ escaped_escape x
    cases escaped with
    | plain quote backslash printed => simp_all
    | short named =>
      simp only [List.cons_append, List.nil_append, List.cons.injEq, true_and] at h
      rw [h.1] at named
      cases named
    | number control =>
      simp only [List.cons_append, List.nil_append, List.cons.injEq, true_and] at h
      obtain ⟨rfl, rfl, rfl, rfl, -⟩ := h
      exact ⟨_, hex4?_control control⟩

/-- A number that is no half of a surrogate pair is read on its own. -/
theorem unescape_number {sound : Bool} {done rest : List Char} {a b c d : Char} {u : Nat}
    (number : Token.hex4? a b c d = some u) (small : u < 0xd800)
    (numbers : ∀ a' b' c' d' cs, rest = '\\' :: 'u' :: a' :: b' :: c' :: d' :: cs →
      ∃ v, Token.hex4? a' b' c' d' = some v) :
    Token.unescape sound done ('\\' :: 'u' :: a :: b :: c :: d :: rest) =
      Token.unescape sound (Char.ofNat u :: done) rest := by
  have high : Token.isHighSurrogate u = false := by simp [Token.isHighSurrogate]; omega
  have low : Token.isLowSurrogate u = false := by simp [Token.isLowSurrogate]; omega
  -- The reader looks ahead for the other half of a pair before it takes the number.
  by_cases ahead : ∃ a' b' c' d' cs, rest = '\\' :: 'u' :: a' :: b' :: c' :: d' :: cs
  · obtain ⟨a', b', c', d', cs, rfl⟩ := ahead
    obtain ⟨v, second⟩ := numbers _ _ _ _ _ rfl
    rw [Token.unescape]
    simp [number, second, high, low]
  · rw [Token.unescape]
    · simp [number, high, low]
    · intro a' b' c' d' cs eq
      exact ahead ⟨a', b', c', d', cs, eq⟩

/-- Reading an escaped text gives its characters. -/
theorem unescape_flatMap_escape (cs done : List Char) :
    Token.unescape true done (cs.flatMap escape) = some (some (String.ofList (done.reverse ++ cs))) := by
  induction cs generalizing done with
  | nil => simp [Token.unescape]
  | cons x cs ih =>
    have step : Token.unescape true done (escape x ++ cs.flatMap escape) =
        Token.unescape true (x :: done) (cs.flatMap escape) := by
      generalize hx : escape x = w
      have escaped := hx ▸ escaped_escape x
      cases escaped with
      | plain quote backslash printed =>
        rw [List.singleton_append, Token.unescape]
        all_goals simp_all
      | @short e named =>
        have letter : e ≠ 'u' := by rintro rfl; cases named
        simp only [List.cons_append, List.nil_append]
        rw [Token.unescape, named]
        all_goals simp_all
      | number control =>
        have bound : x.toNat < 32 := control
        simp only [List.cons_append, List.nil_append]
        rw [unescape_number (hex4?_control control) (by omega) fun _ _ _ _ _ => hex4?_of_flatMap_escape,
          Char.ofNat_toNat]
    rw [List.flatMap_cons, step, ih]
    simp

/-- Inside a string, the characters that stand for a character are kept. -/
theorem foldlM_escape (c : Char) (done : List Char) (ts : List Token) :
    (escape c).foldlM Scan.next ⟨.string done false, ts⟩ =
      some ⟨.string ((escape c).reverse ++ done) false, ts⟩ := by
  generalize hc : escape c = w
  have escaped := hc ▸ escaped_escape c
  cases escaped with
  | plain quote backslash printed => simp [Scan.next, quote, backslash, printed]
  | short named => simp [Scan.next]
  | number control =>
    have bound : c.toNat < 32 := control
    have plain : ∀ n < 16, (hexDigit n == '"') = false ∧ ¬ hexDigit n < ' ' ∧ (hexDigit n == '\\') = false := by
      decide
    obtain ⟨quote₁, printed₁, backslash₁⟩ := plain (c.toNat / 16) (by omega)
    obtain ⟨quote₂, printed₂, backslash₂⟩ := plain (c.toNat % 16) (by omega)
    simp [Scan.next, quote₁, printed₁, backslash₁, quote₂, printed₂, backslash₂]

theorem foldlM_flatMap_escape (cs done : List Char) (ts : List Token) :
    (cs.flatMap escape).foldlM Scan.next ⟨.string done false, ts⟩ =
      some ⟨.string ((cs.flatMap escape).reverse ++ done) false, ts⟩ := by
  induction cs generalizing done with
  | nil => rfl
  | cons c cs ih => simp [List.foldlM_append, foldlM_escape, ih]

/-! ## Words -/

/-- A character that does not end a word. -/
def InWord (c : Char) : Prop :=
  Token.isBlank c = false ∧ c ≠ '"' ∧ (Token.punctuation? c).isNone = true

instance : DecidablePred InWord := fun _ => inferInstanceAs (Decidable (_ ∧ _ ∧ _))

theorem inWord_of_all {cs : List Char} (h : cs.all (fun c => decide (InWord c)) = true) :
    ∀ c ∈ cs, InWord c :=
  fun c mem => of_decide_eq_true (List.all_eq_true.1 h c mem)

theorem inWord_of_isPart {c : Char} (part : Numeral.IsPart c) : InWord c := by
  refine ⟨?_, ?_, ?_⟩
  · rw [Bool.eq_false_iff]
    intro blank
    simp only [Token.isBlank, Bool.or_eq_true, beq_iff_eq] at blank
    obtain ((rfl | rfl) | rfl) | rfl := blank
    all_goals simp [Numeral.IsPart] at part
  · rintro rfl
    simp [Numeral.IsPart] at part
  · unfold Token.punctuation?
    split
    case h_7 => rfl
    all_goals simp [Numeral.IsPart] at part

theorem next_inWord {c : Char} (inWord : InWord c) (done : List Char) (ts : List Token) :
    Scan.next ⟨.word done, ts⟩ c = some ⟨.word (c :: done), ts⟩ := by
  obtain ⟨blank, quote, punctuation⟩ := inWord
  simp [Scan.next, Scan.plain, blank, quote, Option.isNone_iff_eq_none.1 punctuation]

/-- Characters of a word are kept. -/
theorem foldlM_word {cs : List Char} (inWord : ∀ c ∈ cs, InWord c) (done : List Char) (ts : List Token) :
    cs.foldlM Scan.next ⟨.word done, ts⟩ = some ⟨.word (cs.reverse ++ done), ts⟩ := by
  induction cs generalizing done with
  | nil => rfl
  | cons c cs ih =>
    obtain ⟨first, others⟩ := List.forall_mem_cons.1 inWord
    simp [next_inWord first, ih others]

/-- Nothing but a word is read where there is a word. -/
theorem foldlM_word_between {cs : List Char} (inWord : ∀ c ∈ cs, InWord c) (nonempty : cs ≠ [])
    (ts : List Token) : cs.foldlM Scan.next ⟨.between, ts⟩ = some ⟨.word cs.reverse, ts⟩ := by
  cases cs with
  | nil => exact absurd rfl nonempty
  | cons c cs =>
    obtain ⟨⟨blank, quote, punctuation⟩, others⟩ := List.forall_mem_cons.1 inWord
    have first : Scan.next ⟨.between, ts⟩ c = some ⟨.word [c], ts⟩ := by
      simp [Scan.next, Scan.plain, blank, quote, Option.isNone_iff_eq_none.1 punctuation]
    simp [first, foldlM_word others]

/-- A number is no constant. -/
theorem word?_of_read? {cs : List Char} {j : Json} (read : Numeral.read? cs = some j) :
    Token.word? cs = some (.scalar j) := by
  obtain ⟨parts, -⟩ := Numeral.read?_cases read
  have other : ∀ {w : List Char} {c : Char}, c ∈ w → ¬ Numeral.IsPart c → ¬ (cs == w) = true := by
    intro w c mem noPart same
    exact noPart (parts c (beq_iff_eq.1 same ▸ mem))
  unfold Token.word?
  rw [if_neg (other (c := 'n') (by decide) (by decide)), if_neg (other (c := 't') (by decide) (by decide)),
    if_neg (other (c := 'f') (by decide) (by decide)), read]
  rfl

/-! ## Drafts -/

/-- The text makes the draft once a word at its end has ended. -/
def Makes (out : String) (d : Draft) : Prop :=
  ∃ s ts, out.toList.foldlM Scan.next ⟨.between, []⟩ = some s ∧ s.endWord = some ⟨.between, ts⟩ ∧
    ts.reverse.foldlM Draft.next ⟨[], .value⟩ = some d

/-- The text makes the draft, and no word is open at its end. -/
def Rests (out : String) (d : Draft) : Prop :=
  ∃ ts, out.toList.foldlM Scan.next ⟨.between, []⟩ = some ⟨.between, ts⟩ ∧
    ts.reverse.foldlM Draft.next ⟨[], .value⟩ = some d

variable {out : String} {d d' : Draft}

theorem rests_empty : Rests "" ⟨[], .value⟩ := ⟨[], rfl, rfl⟩

theorem Rests.makes (rests : Rests out d) : Makes out d := by
  obtain ⟨ts, scanned, made⟩ := rests
  exact ⟨_, ts, scanned, rfl, made⟩

/-- A text that makes a whole value is read as that value. -/
theorem Makes.parse? {j : Json} (makes : Makes out ⟨[], .nothing j⟩) : parse? out = some j := by
  obtain ⟨s, ts, scanned, ended, made⟩ := makes
  simp [Json.parse?, Token.scan?, ofTokens?, scanned, ended, made]

/-- Punctuation ends a word and adds its token. -/
theorem Makes.push (makes : Makes out d) {c : Char} {t : Token} (punctuation : Token.punctuation? c = some t)
    (next : d.next t = some d') : Rests (out.push c) d' := by
  obtain ⟨s, ts, scanned, ended, made⟩ := makes
  have step : s.next c = some ⟨.between, t :: ts⟩ := by
    have plain : s.next c = s.plain c := by
      unfold Scan.next
      split
      · next mode => simp [Scan.endWord, mode] at ended
      · next mode => simp [Scan.endWord, mode] at ended
      · rfl
    have noBlank : Token.isBlank c = false ∧ (c == '"') = false := by
      unfold Token.punctuation? at punctuation
      split at punctuation
      case h_7 => cases punctuation
      all_goals exact ⟨rfl, rfl⟩
    simp [plain, Scan.plain, noBlank, punctuation, ended]
  exact ⟨t :: ts, by simp [List.foldlM_append, scanned, step], by simp [List.foldlM_append, made, next]⟩

/-- A word adds its token when it ends. -/
theorem Rests.word (rests : Rests out d) {w : String} {t : Token} (word : Token.word? w.toList = some t)
    (inWord : ∀ c ∈ w.toList, InWord c) (next : d.next t = some d') : Makes (out ++ w) d' := by
  obtain ⟨ts, scanned, made⟩ := rests
  have nonempty : w.toList ≠ [] := by
    intro empty
    rw [empty] at word
    cases word
  refine ⟨⟨.word w.toList.reverse, ts⟩, t :: ts, ?_, ?_, by simp [List.foldlM_append, made, next]⟩
  · simp [List.foldlM_append, scanned, foldlM_word_between inWord nonempty]
  · simp [Scan.endWord, word]

/-- A string adds its characters. -/
theorem Rests.text (rests : Rests out d) {s : String} (next : d.next (.text (some s)) = some d') :
    Rests (writeText out s) d' := by
  obtain ⟨ts, scanned, made⟩ := rests
  refine ⟨.text (some s) :: ts, ?_, by simp [List.foldlM_append, made, next]⟩
  have opened : Scan.next ⟨.between, ts⟩ '"' = some ⟨.string [] false, ts⟩ := rfl
  have closed : ∀ done, Scan.next ⟨.string done false, ts⟩ '"' =
      (Token.unescape true [] done.reverse).map fun t => ⟨.between, .text t :: ts⟩ := fun _ => rfl
  rw [toList_writeText, List.foldlM_append, scanned]
  simp [opened, closed, List.foldlM_append, foldlM_flatMap_escape, unescape_flatMap_escape]

/-- A number adds itself when it ends. -/
theorem Rests.number (rests : Rests out d) {w : String} {j : Json} (read : Numeral.read? w.toList = some j)
    (next : d.next (.scalar j) = some d') : Makes (out ++ w) d' :=
  rests.word (word?_of_read? read)
    (fun c mem => inWord_of_isPart ((Numeral.read?_cases read).1 c mem)) next

/-! ## Values -/

/-- The digits that are written for a double are read as that double. -/
def ReadsBack (x : Float) : Prop := Numeral.read? (doubleStyle.write x).toList = some (.double x)

/-- A scalar that is read as it is written, if that is so for doubles with a property. -/
def Legible (readsBack : Float → Prop) : Json → Prop
  | .int n => Fits n
  | .double x => x.isFinite = true ∧ readsBack x
  | .illFormed => False
  | _ => True

namespace Draft

variable {opened : List Open} {expected : Expected} {t : Token}

theorem next_of_startValue (start : expected = .value ∨ expected = .item)
    (h : startValue opened t = some d) : next ⟨opened, expected⟩ t = some d := by
  rcases start with rfl | rfl
  · exact h
  · cases t with
    | closeArray => cases h
    | _ => exact h

theorem next_of_startKey (start : expected = .key ∨ expected = .keyOrEnd)
    (h : startKey opened t = some d) : next ⟨opened, expected⟩ t = some d := by
  rcases start with rfl | rfl
  · exact h
  · cases t with
    | closeObject => unfold startKey at h; split at h <;> simp_all
    | _ => exact h

end Draft

/-- A key that is written where one may start waits for its value. -/
theorem Rests.key {opened : List Open} {done : List (String × Json)} {expected : Expected}
    (rests : Rests out ⟨.obj done true :: opened, expected⟩)
    (start : expected = .key ∨ expected = .keyOrEnd) (key : String) :
    Rests ((writeText out key).push ':') ⟨.member done true key :: opened, .value⟩ := by
  have named := rests.text (s := key) (Draft.next_of_startKey start rfl)
  exact named.makes.push (t := .colon) rfl rfl

mutual

/-- A value that is written where one may start is added to the draft. -/
theorem Rests.value {out : String} {opened : List Open} {expected : Expected} {d : Draft}
    (rests : Rests out ⟨opened, expected⟩) (start : expected = .value ∨ expected = .item) :
    ∀ {j : Json}, j.Each (Legible ReadsBack) → Draft.add opened j = some d → Makes (writeCompact out j) d
  | .null, _, added => rests.word rfl (inWord_of_all rfl) (Draft.next_of_startValue start added)
  | .bool true, _, added => rests.word rfl (inWord_of_all rfl) (Draft.next_of_startValue start added)
  | .bool false, _, added => rests.word rfl (inWord_of_all rfl) (Draft.next_of_startValue start added)
  | .int n, fits, added => rests.number (Numeral.read?_toString fits) (Draft.next_of_startValue start added)
  | .double x, legible, added => by
    unfold writeCompact writeDouble
    rw [if_pos legible.1]
    exact rests.number legible.2 (Draft.next_of_startValue start added)
  | .str s, _, added => (rests.text (Draft.next_of_startValue start added)).makes
  | .arr [], _, added => by
    have opens := rests.makes.push (c := '[') (t := .openArray) rfl (Draft.next_of_startValue start rfl)
    exact (opens.makes.push (t := .closeArray) rfl added).makes
  | .arr (item :: rest), each, added => by
    have opens := rests.makes.push (c := '[') (t := .openArray) rfl (Draft.next_of_startValue start rfl)
    have first := opens.value (.inr rfl) each.1 rfl
    have all := first.items each.2
    refine (all.push (t := .closeArray) rfl ?_).makes
    simpa [Draft.next, Draft.separate, Draft.closeArray] using added
  | .obj [], _, added => by
    have opens := rests.makes.push (c := '\x7b') (t := .openObject) rfl (Draft.next_of_startValue start rfl)
    exact (opens.makes.push (t := .closeObject) rfl added).makes
  | .obj ((key, value) :: rest), each, added => by
    have opens := rests.makes.push (c := '\x7b') (t := .openObject) rfl (Draft.next_of_startValue start rfl)
    have first := (opens.key (.inr rfl) key).value (.inl rfl) each.1 rfl
    have all := first.members each.2
    refine (all.push (t := .closeObject) rfl ?_).makes
    simpa [Draft.next, Draft.separate, Draft.closeObject] using added

/-- Items that are written after others are added to their array. -/
theorem Makes.items {out : String} {opened : List Open} {done : List Json}
    (makes : Makes out ⟨.arr done :: opened, .separator⟩) :
    ∀ {items : List Json}, EachItem (Legible ReadsBack) items →
      Makes (writeItems out false items) ⟨.arr (items.reverse ++ done) :: opened, .separator⟩
  | [], _ => makes
  | item :: rest, each => by
    have comma := makes.push (c := ',') (t := .comma) rfl rfl
    have added := comma.value (.inl rfl) each.1 rfl
    simpa [writeItems] using added.items each.2

/-- Members that are written after others are added to their object. -/
theorem Makes.members {out : String} {opened : List Open} {done : List (String × Json)}
    (makes : Makes out ⟨.obj done true :: opened, .separator⟩) :
    ∀ {members : List (String × Json)}, EachMember (Legible ReadsBack) members →
      Makes (writeMembers out false members) ⟨.obj (members.reverse ++ done) true :: opened, .separator⟩
  | [], _ => makes
  | (key, value) :: rest, each => by
    have comma := makes.push (c := ',') (t := .comma) rfl rfl
    have added := (comma.key (.inl rfl) key).value (.inl rfl) each.1 rfl
    simpa [writeMembers] using added.members each.2

end

/-- A value whose scalars are read as they are written is read as it is written. -/
theorem parse?_compact {j : Json} (each : j.Each (Legible ReadsBack)) : parse? j.compact = some j :=
  (rests_empty.value (.inl rfl) each rfl).parse?

end Stacklet.Json

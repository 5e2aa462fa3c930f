import Stacklet.Json.Reader
import Stacklet.Proofs.Json.Numeral

/-!
# The scalars of a value

What holds of every scalar that a word can be holds of all scalars of a value that is read, for reading
only puts them together. So the whole numbers in a value that is read fit 64 bits (`parse?_inRange`).
-/

namespace Stacklet.Json

mutual

/-- Every part of the value that is not a container satisfies the predicate. -/
def Each (P : Json → Prop) : Json → Prop
  | .arr items => EachItem P items
  | .obj members => EachMember P members
  | j => P j

/-- The parts of every item do. -/
def EachItem (P : Json → Prop) : List Json → Prop
  | [] => True
  | j :: rest => j.Each P ∧ EachItem P rest

/-- The parts of every member do. -/
def EachMember (P : Json → Prop) : List (String × Json) → Prop
  | [] => True
  | (_, j) :: rest => j.Each P ∧ EachMember P rest

end

variable {P : Json → Prop}

theorem eachItem_iff {items : List Json} : EachItem P items ↔ ∀ j ∈ items, j.Each P := by
  induction items with
  | nil => simp [EachItem]
  | cons j rest ih => simp [EachItem, ih]

theorem eachMember_iff {members : List (String × Json)} :
    EachMember P members ↔ ∀ m ∈ members, m.2.Each P := by
  induction members with
  | nil => simp [EachMember]
  | cons m rest ih => simp [EachMember, ih]

/-- A scalar that is a whole number fits 64 bits. -/
def InRange : Json → Prop
  | .int n => Fits n
  | _ => True

/-- A property that every step keeps holds at the end of a fold. -/
theorem foldlM_keeps {σ α : Type} {f : σ → α → Option σ} {I : σ → Prop} {xs : List α}
    (step : ∀ s s', ∀ x ∈ xs, I s → f s x = some s' → I s') {s s' : σ} (start : I s)
    (h : xs.foldlM f s = some s') : I s' := by
  induction xs generalizing s with
  | nil => cases h; exact start
  | cons x xs ih =>
    obtain ⟨t, first, rest⟩ := Option.bind_eq_some_iff.1 h
    exact ih (fun s s' x mem => step s s' x (List.mem_cons_of_mem _ mem))
      (step s t x List.mem_cons_self start first) rest

/-! ## Tokens -/

namespace Token

/-- A token that is a whole number fits 64 bits. -/
def InRange : Token → Prop
  | .scalar j => j.Each Json.InRange
  | _ => True

theorem inRange_of_word? {cs : List Char} {t : Token} (h : word? cs = some t) : t.InRange := by
  unfold word? at h
  split at h
  · cases h; trivial
  · split at h
    · cases h; trivial
    · split at h
      · cases h; trivial
      · obtain ⟨j, read, rfl⟩ := Option.map_eq_some_iff.1 h
        obtain ⟨-, ⟨n, rfl, fits⟩ | ⟨x, rfl⟩⟩ := Numeral.read?_cases read
        · exact fits
        · trivial

/-- The whole numbers among the tokens so far fit. -/
def Scan.InRange (s : Scan) : Prop := ∀ t ∈ s.done, t.InRange

namespace Scan

variable {s s' : Scan}

theorem InRange.endWord (fits : s.InRange) (h : s.endWord = some s') : s'.InRange := by
  unfold Scan.endWord at h
  split at h
  · cases h; exact fits
  · obtain ⟨t, word, rfl⟩ := Option.map_eq_some_iff.1 h
    exact List.forall_mem_cons.2 ⟨inRange_of_word? word, fits⟩
  · cases h

theorem inRange_of_punctuation? {c : Char} {t : Token} (h : punctuation? c = some t) : t.InRange := by
  unfold punctuation? at h
  split at h <;> cases h <;> trivial

theorem InRange.plain (fits : s.InRange) {c : Char} (h : s.plain c = some s') : s'.InRange := by
  unfold Scan.plain at h
  split at h
  · exact fits.endWord h
  · split at h
    · obtain ⟨t, ended, rfl⟩ := Option.map_eq_some_iff.1 h
      exact fun t mem => fits.endWord ended t mem
    · split at h
      · next punctuation =>
        obtain ⟨t, ended, rfl⟩ := Option.map_eq_some_iff.1 h
        exact List.forall_mem_cons.2 ⟨inRange_of_punctuation? punctuation, fits.endWord ended⟩
      · cases h; exact fits
      · cases h; exact fits

theorem InRange.next (fits : s.InRange) {c : Char} (h : s.next c = some s') : s'.InRange := by
  unfold Scan.next at h
  split at h
  · cases h; exact fits
  · split at h
    · obtain ⟨t, -, rfl⟩ := Option.map_eq_some_iff.1 h
      exact List.forall_mem_cons.2 ⟨trivial, fits⟩
    · split at h
      · cases h
      · cases h; exact fits
  · exact fits.plain h

end Scan

/-- The whole numbers among the tokens of a text fit 64 bits. -/
theorem scan?_inRange {text : String} {ts : List Token} (h : scan? text = some ts) : ∀ t ∈ ts, t.InRange := by
  obtain ⟨s, scanned, h⟩ := Option.bind_eq_some_iff.1 h
  obtain ⟨s', ended, h⟩ := Option.bind_eq_some_iff.1 h
  cases h
  have fits : s.InRange :=
    foldlM_keeps (fun _ _ _ _ fits step => Scan.InRange.next fits step) (by intro t mem; cases mem) scanned
  intro t mem
  exact fits.endWord ended t (List.mem_reverse.1 mem)

end Token

/-! ## Drafts -/

/-- The whole numbers in an open container fit. -/
def Open.InRange : Open → Prop
  | .arr items => EachItem Json.InRange items
  | .obj members _ | .member members _ _ => EachMember Json.InRange members

/-- The whole numbers in a draft fit. -/
structure Draft.InRange (d : Draft) : Prop where
  opened : ∀ o ∈ d.opened, o.InRange
  value : ∀ j, d.expected = .nothing j → j.Each Json.InRange

namespace Draft

variable {d d' : Draft} {opened : List Open} {t : Token} (fits : ∀ o ∈ opened, o.InRange)

include fits

theorem inRange_add {j : Json} (h : add opened j = some d) (each : j.Each Json.InRange) : d.InRange := by
  unfold add at h
  split at h
  · cases h
    exact ⟨fits, by rintro _ ⟨⟩; exact each⟩
  · cases h
    obtain ⟨inner, outer⟩ := List.forall_mem_cons.1 fits
    exact ⟨List.forall_mem_cons.2 ⟨⟨each, inner⟩, outer⟩, by rintro _ ⟨⟩⟩
  · cases h
    obtain ⟨inner, outer⟩ := List.forall_mem_cons.1 fits
    exact ⟨List.forall_mem_cons.2 ⟨⟨each, inner⟩, outer⟩, by rintro _ ⟨⟩⟩
  · cases h

theorem inRange_closeArray (h : closeArray opened = some d) : d.InRange := by
  unfold closeArray at h
  split at h
  · obtain ⟨inner, outer⟩ := List.forall_mem_cons.1 fits
    exact inRange_add outer h (eachItem_iff.2 fun j mem => eachItem_iff.1 inner j (List.mem_reverse.1 mem))
  · cases h

theorem inRange_closeObject (h : closeObject opened = some d) : d.InRange := by
  unfold closeObject at h
  split at h
  · next members sound _ =>
    obtain ⟨inner, outer⟩ := List.forall_mem_cons.1 fits
    refine inRange_add outer h ?_
    cases sound
    · trivial
    · exact eachMember_iff.2 fun m mem => eachMember_iff.1 inner m (List.mem_reverse.1 mem)
  · cases h

theorem inRange_startValue (token : t.InRange) (h : startValue opened t = some d) : d.InRange := by
  unfold startValue at h
  split at h
  · cases h
    exact ⟨List.forall_mem_cons.2 ⟨trivial, fits⟩, by rintro _ ⟨⟩⟩
  · cases h
    exact ⟨List.forall_mem_cons.2 ⟨trivial, fits⟩, by rintro _ ⟨⟩⟩
  · exact inRange_add fits h token
  · exact inRange_add fits h trivial
  · exact inRange_add fits h trivial
  · cases h

theorem inRange_startKey (h : startKey opened t = some d) : d.InRange := by
  unfold startKey at h
  split at h
  · cases h
    obtain ⟨inner, outer⟩ := List.forall_mem_cons.1 fits
    exact ⟨List.forall_mem_cons.2 ⟨inner, outer⟩, by rintro _ ⟨⟩⟩
  · cases h
    obtain ⟨inner, outer⟩ := List.forall_mem_cons.1 fits
    exact ⟨List.forall_mem_cons.2 ⟨inner, outer⟩, by rintro _ ⟨⟩⟩
  · cases h

theorem inRange_separate (h : separate opened t = some d) : d.InRange := by
  unfold separate at h
  split at h
  · cases h
    exact ⟨fits, by rintro _ ⟨⟩⟩
  · cases h
    exact ⟨fits, by rintro _ ⟨⟩⟩
  · exact inRange_closeArray fits h
  · exact inRange_closeObject fits h
  · cases h

omit fits in
theorem InRange.next (range : d.InRange) (token : t.InRange) (h : d.next t = some d') : d'.InRange := by
  obtain ⟨fits, -⟩ := range
  unfold Draft.next at h
  split at h
  · exact inRange_startValue fits token h
  · exact inRange_closeArray fits h
  · exact inRange_startValue fits token h
  · exact inRange_startKey fits h
  · exact inRange_closeObject fits h
  · exact inRange_startKey fits h
  · cases h
    exact ⟨fits, by rintro _ ⟨⟩⟩
  · cases h
  · exact inRange_separate fits h
  · cases h

end Draft

/-- The whole numbers in a value that is read fit 64 bits. -/
theorem parse?_inRange {text : String} {j : Json} (h : parse? text = some j) : j.Each InRange := by
  obtain ⟨ts, scanned, h⟩ := Option.bind_eq_some_iff.1 h
  obtain ⟨d, made, h⟩ := Option.bind_eq_some_iff.1 h
  have fits : d.InRange :=
    foldlM_keeps (fun _ _ t mem range => range.next (Token.scan?_inRange scanned t mem))
      ⟨(by intro o mem; cases mem), (by rintro _ ⟨⟩)⟩ made
  split at h
  · next whole =>
    cases h
    exact fits.value j whole
  · cases h

end Stacklet.Json

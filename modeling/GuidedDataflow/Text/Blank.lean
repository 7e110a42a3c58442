/-!
White space: the characters with the Unicode property `White_Space`, and trimming text of
them at either end. Trimming is stated on lists of characters; a trimmed text neither begins
nor ends with a blank, and trimming it again changes nothing.
-/

namespace GuidedDataflow.Text

/-- The twenty-five characters with the property `White_Space`. -/
def isBlank (c : Char) : Bool :=
  let n := c.toNat
  (9 ≤ n && n ≤ 13) || n == 0x20 || n == 0x85 || n == 0xA0 || n == 0x1680 ||
    (0x2000 ≤ n && n ≤ 0x200A) || n == 0x2028 || n == 0x2029 || n == 0x202F ||
    n == 0x205F || n == 0x3000

theorem isBlank_of_isWhitespace {c : Char} (h : c.isWhitespace = true) : isBlank c = true := by
  simp only [Char.isWhitespace, Bool.or_eq_true, decide_eq_true_eq] at h
  rcases h with ((rfl | rfl) | rfl) | rfl <;> rfl

def trimLeft (cs : List Char) : List Char := cs.dropWhile isBlank

def trimRight (cs : List Char) : List Char := (cs.reverse.dropWhile isBlank).reverse

def trim (cs : List Char) : List Char := trimRight (trimLeft cs)

/-- Neither end is a blank. The empty text is trimmed. -/
def Trimmed (cs : List Char) : Prop :=
  (∀ c ∈ cs.head?, isBlank c = false) ∧ ∀ c ∈ cs.getLast?, isBlank c = false

theorem dropWhile_eq_self {α : Type _} {p : α → Bool} {l : List α}
    (h : ∀ a ∈ l.head?, p a = false) : l.dropWhile p = l := by
  cases l with
  | nil => rfl
  | cons a l => simp [h a (by simp)]

theorem head?_dropWhile_false {α : Type _} {p : α → Bool} {l : List α} :
    ∀ a ∈ (l.dropWhile p).head?, p a = false := by
  induction l with
  | nil => simp
  | cons b l ih =>
    intro a ha
    by_cases hb : p b = true
    · simp only [List.dropWhile_cons, hb, if_true] at ha
      exact ih a ha
    · simp only [List.dropWhile_cons, hb] at ha
      simp at ha
      simpa [← ha] using hb

theorem trim_eq_self {cs : List Char} (h : Trimmed cs) : trim cs = cs := by
  have h1 : trimLeft cs = cs := dropWhile_eq_self h.1
  have h2 : cs.reverse.dropWhile isBlank = cs.reverse :=
    dropWhile_eq_self (by simpa using h.2)
  simp [trim, trimRight, h1, h2]

theorem getLast?_trimRight {cs : List Char} :
    ∀ c ∈ (trimRight cs).getLast?, isBlank c = false := by
  intro c hc
  simp only [trimRight, List.getLast?_reverse] at hc
  exact head?_dropWhile_false c hc

/-- Trimming at the right keeps the first character, unless nothing is left. -/
theorem head?_trimRight {cs : List Char} :
    ∀ c ∈ (trimRight cs).head?, c ∈ cs.head? := by
  intro c hc
  have hp : trimRight cs <+: cs := by
    rw [trimRight, ← List.reverse_suffix, List.reverse_reverse]
    exact List.dropWhile_suffix _
  obtain ⟨t, ht⟩ := hp
  cases hr : trimRight cs with
  | nil => simp [hr] at hc
  | cons d r =>
    rw [hr] at hc ht
    simp only [List.head?_cons, Option.mem_some_iff] at hc
    subst hc
    simp [← ht]

theorem trimmed_trim (cs : List Char) : Trimmed (trim cs) :=
  ⟨fun c hc => head?_dropWhile_false c (head?_trimRight c hc), getLast?_trimRight⟩

theorem trim_trim (cs : List Char) : trim (trim cs) = trim cs := trim_eq_self (trimmed_trim cs)

end GuidedDataflow.Text

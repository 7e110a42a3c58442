/-!
Cutting text at a separator: at its first place, at every place, and at line ends.
Joining the pieces with the separator gives the text back.
-/

namespace GuidedDataflow.Text

/-- What stands before and after the first `sep`, if there is one. -/
def splitOnce? (sep : Char) : List Char → Option (List Char × List Char)
  | [] => none
  | c :: cs =>
    if c = sep then some ([], cs)
    else (splitOnce? sep cs).map fun (before, after) => (c :: before, after)

/-- The pieces between the separators; a text without one is its own single piece. -/
def splitAll (sep : Char) : List Char → List (List Char)
  | [] => [[]]
  | c :: cs =>
    if c = sep then [] :: splitAll sep cs
    else
      match splitAll sep cs with
      | [] => [[c]]
      | piece :: pieces => (c :: piece) :: pieces

theorem splitAll_ne_nil (sep : Char) (cs : List Char) : splitAll sep cs ≠ [] := by
  cases cs with
  | nil => simp [splitAll]
  | cons c cs =>
    simp only [splitAll]
    split
    · simp
    · split <;> simp

/-- The part after the last separator, or the whole text where there is none. -/
def lastPiece (sep : Char) (cs : List Char) : List Char :=
  (splitAll sep cs).getLast (splitAll_ne_nil sep cs)

def joinWith (sep : List Char) : List (List Char) → List Char
  | [] => []
  | [piece] => piece
  | piece :: pieces => piece ++ sep ++ joinWith sep pieces

theorem splitOnce?_append {sep : Char} {before after : List Char} (h : sep ∉ before) :
    splitOnce? sep (before ++ sep :: after) = some (before, after) := by
  induction before with
  | nil => simp [splitOnce?]
  | cons c cs ih =>
    simp only [List.mem_cons, not_or] at h
    simp [splitOnce?, Ne.symm h.1, ih h.2]

theorem eq_of_splitOnce? {sep : Char} {cs before after : List Char}
    (h : splitOnce? sep cs = some (before, after)) :
    cs = before ++ sep :: after ∧ sep ∉ before := by
  induction cs generalizing before with
  | nil => simp [splitOnce?] at h
  | cons c cs ih =>
    by_cases hc : c = sep
    · simp only [splitOnce?, hc, if_true, Option.some.injEq, Prod.mk.injEq] at h
      simp [← h.1, ← h.2, hc]
    · simp only [splitOnce?, hc, if_false, Option.map_eq_some_iff] at h
      obtain ⟨⟨b, a⟩, hs, heq⟩ := h
      simp only [Prod.mk.injEq] at heq
      obtain ⟨rfl, rfl⟩ := heq
      obtain ⟨hcs, hn⟩ := ih hs
      exact ⟨by simp [hcs], by simp [Ne.symm hc, hn]⟩

theorem splitOnce?_eq_none {sep : Char} {cs : List Char} :
    splitOnce? sep cs = none ↔ sep ∉ cs := by
  induction cs with
  | nil => simp [splitOnce?]
  | cons c cs ih =>
    by_cases hc : c = sep
    · simp [splitOnce?, hc]
    · simp [splitOnce?, hc, ih, Ne.symm hc]

theorem joinWith_splitAll (sep : Char) (cs : List Char) :
    joinWith [sep] (splitAll sep cs) = cs := by
  induction cs with
  | nil => rfl
  | cons c cs ih =>
    cases hs : splitAll sep cs with
    | nil => exact absurd hs (splitAll_ne_nil sep cs)
    | cons piece pieces =>
      rw [hs] at ih
      by_cases hc : c = sep
      · simp [splitAll, hc, hs, joinWith, ih]
      · cases pieces with
        | nil => simp [splitAll, hc, hs, joinWith] at ih ⊢; exact ih
        | cons q qs => simp [splitAll, hc, hs, joinWith] at ih ⊢; exact ih

theorem splitAll_of_not_mem {sep : Char} {piece : List Char} (h : sep ∉ piece) :
    splitAll sep piece = [piece] := by
  induction piece with
  | nil => rfl
  | cons c cs ih =>
    simp only [List.mem_cons, not_or] at h
    simp [splitAll, Ne.symm h.1, ih h.2]

theorem splitAll_append_cons (sep : Char) (cs ds : List Char) :
    splitAll sep (cs ++ sep :: ds) = splitAll sep cs ++ splitAll sep ds := by
  induction cs with
  | nil => simp [splitAll]
  | cons c cs ih =>
    by_cases hc : c = sep
    · simp [splitAll, hc, ih]
    · cases hpieces : splitAll sep cs with
      | nil => exact absurd hpieces (splitAll_ne_nil sep cs)
      | cons first pieces => simp [splitAll, hc, ih, hpieces]

theorem splitAll_append {sep : Char} {piece : List Char} (h : sep ∉ piece) (cs : List Char) :
    splitAll sep (piece ++ sep :: cs) = piece :: splitAll sep cs := by
  rw [splitAll_append_cons, splitAll_of_not_mem h, List.singleton_append]

/-- Pieces without the separator can be told apart again. -/
theorem splitAll_joinWith {sep : Char} {pieces : List (List Char)} (hne : pieces ≠ [])
    (h : ∀ piece ∈ pieces, sep ∉ piece) : splitAll sep (joinWith [sep] pieces) = pieces := by
  induction pieces with
  | nil => exact absurd rfl hne
  | cons piece pieces ih =>
    have hp : sep ∉ piece := h piece (by simp)
    cases pieces with
    | nil => exact splitAll_of_not_mem hp
    | cons q qs =>
      have hq := ih (by simp) fun r hr => h r (List.mem_cons_of_mem _ hr)
      rw [joinWith, List.append_assoc, List.singleton_append, splitAll_append hp, hq]
      simp

/-- The lines of a text. A line ends at a line feed, which with one carriage return before
it is not part of the line; a text that ends with a line feed has no empty last line. -/
def lines (cs : List Char) : List (List Char) :=
  let pieces := splitAll '\n' cs
  let ended := pieces.dropLast.map fun piece =>
    if piece.getLast? = some '\r' then piece.dropLast else piece
  match pieces.getLast? with
  | some [] | none => ended
  | some piece => ended ++ [piece]

theorem lastPiece_append_cons {sep : Char} {piece : List Char} (h : sep ∉ piece)
    (cs : List Char) : lastPiece sep (cs ++ sep :: piece) = piece := by
  unfold lastPiece
  simp only [splitAll_append_cons, splitAll_of_not_mem h]
  exact List.getLast_concat

theorem lastPiece_of_not_mem {sep : Char} {piece : List Char} (h : sep ∉ piece) :
    lastPiece sep piece = piece := by
  unfold lastPiece
  simp only [splitAll_of_not_mem h]
  rfl

end GuidedDataflow.Text

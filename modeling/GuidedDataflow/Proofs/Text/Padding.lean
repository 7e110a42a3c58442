import GuidedDataflow.Text.Blank
import GuidedDataflow.Text.Split

/-!
Text with blanks around it. Trimming takes the blanks off again, and of a list of pieces it
makes no difference whether the text is trimmed as a whole before it is cut. A trimmed word that a
text ends in stays its last word when the text is trimmed.
-/

namespace GuidedDataflow.Text

-- The instances are named, since a search may find one that tries every character.
instance (cs : List Char) : Decidable (Trimmed cs) :=
  @instDecidableAnd _ _ (Option.decidableForallMem cs.head?)
    (Option.decidableForallMem cs.getLast?)

/-- Nothing but blanks. -/
def Blanks (cs : List Char) : Prop := ∀ c ∈ cs, isBlank c = true

instance (cs : List Char) : Decidable (Blanks cs) :=
  List.decidableBAll (fun c => isBlank c = true) cs

/-- The token with blanks before and behind it. -/
def Padded (token cs : List Char) : Prop :=
  ∃ before after, Blanks before ∧ Blanks after ∧ cs = before ++ token ++ after

theorem ne_of_blank {c sep : Char} (hc : isBlank c = true) (hsep : isBlank sep = false) :
    c ≠ sep := by
  rintro rfl
  rw [hc] at hsep
  cases hsep

theorem blanks_nil : Blanks [] := fun _ hc => absurd hc List.not_mem_nil

theorem Blanks.append {cs ds : List Char} (hcs : Blanks cs) (hds : Blanks ds) :
    Blanks (cs ++ ds) :=
  List.forall_mem_append.2 ⟨hcs, hds⟩

theorem Blanks.cons {c : Char} {cs : List Char} (hc : isBlank c = true) (hcs : Blanks cs) :
    Blanks (c :: cs) :=
  List.forall_mem_cons.2 ⟨hc, hcs⟩

/-- No blank is enough. -/
theorem Padded.refl (cs : List Char) : Padded cs cs :=
  ⟨[], [], blanks_nil, blanks_nil, (List.append_nil cs).symm⟩

section Trim

variable {c : Char} {token cs : List Char}

theorem trim_cons (hc : isBlank c = true) (cs : List Char) : trim (c :: cs) = trim cs := by
  rw [trim, trimLeft, List.dropWhile_cons_of_pos hc]
  rfl

theorem trimRight_concat (hc : isBlank c = true) (cs : List Char) :
    trimRight (cs ++ [c]) = trimRight cs := by
  rw [trimRight, List.reverse_concat, List.dropWhile_cons_of_pos hc]
  rfl

theorem trim_concat (hc : isBlank c = true) (cs : List Char) : trim (cs ++ [c]) = trim cs := by
  induction cs with
  | nil => exact trim_cons hc []
  | cons d cs ih =>
    by_cases hd : isBlank d = true
    · rw [List.cons_append, trim_cons hd, trim_cons hd, ih]
    · have hstays : ∀ ds, trimLeft (d :: ds) = d :: ds := fun ds =>
        List.dropWhile_cons_of_neg hd
      rw [List.cons_append, trim, hstays, trim, hstays, ← List.cons_append, trimRight_concat hc]

theorem trim_of_blanks (h : Blanks cs) : trim cs = [] := by
  induction cs with
  | nil => rfl
  | cons c cs ih =>
    obtain ⟨hc, hcs⟩ := List.forall_mem_cons.1 h
    rw [trim_cons hc, ih hcs]

theorem Blanks.not_mem (h : Blanks cs) (hc : isBlank c = false) : c ∉ cs :=
  fun hmem => ne_of_blank (h c hmem) hc rfl

theorem trimLeft_append_of_blanks (h : Blanks cs) (ds : List Char) :
    trimLeft (cs ++ ds) = trimLeft ds :=
  List.dropWhile_append_of_pos h

theorem trimLeft_append (hne : token ≠ []) (h : Trimmed token) (cs : List Char) :
    trimLeft (token ++ cs) = token ++ cs := by
  refine dropWhile_eq_self fun c hc => h.1 c ?_
  cases token with
  | nil => exact absurd rfl hne
  | cons d token => exact hc

/-- A text ends like the token that it ends in. -/
theorem Trimmed.getLast?_append (h : Trimmed token) (hne : token ≠ []) (cs : List Char) :
    ∀ c ∈ (cs ++ token).getLast?, isBlank c = false := by
  intro c hc
  rw [List.getLast?_append, List.getLast?_eq_some_getLast hne, Option.some_or] at hc
  exact h.2 c (List.getLast?_eq_some_getLast hne ▸ hc)

theorem trimRight_append (hne : token ≠ []) (h : Trimmed token) (cs : List Char) :
    trimRight (cs ++ token) = cs ++ token := by
  have hlast : ∀ c ∈ (cs ++ token).reverse.head?, isBlank c = false := by
    rw [List.head?_reverse]
    exact h.getLast?_append hne cs
  rw [trimRight, dropWhile_eq_self hlast, List.reverse_reverse]

/-- Where no blank stands in front, a text is trimmed if its end is. -/
theorem Trimmed.append_left (h : Trimmed token) (hne : token ≠ [])
    (hcs : ∀ c ∈ cs, isBlank c = false) : Trimmed (cs ++ token) := by
  refine ⟨fun c hc => ?_, h.getLast?_append hne cs⟩
  cases cs with
  | nil => exact h.1 c hc
  | cons d cs =>
    obtain rfl : d = c := Option.some.inj hc
    exact hcs d List.mem_cons_self

end Trim

/-- A reading that neither end's blanks change does not change with padding. -/
theorem Padded.eq_of {ρ : Type} {read : List Char → ρ}
    (hcons : ∀ c, isBlank c = true → ∀ cs, read (c :: cs) = read cs)
    (hconcat : ∀ c, isBlank c = true → ∀ cs, read (cs ++ [c]) = read cs)
    {token cs : List Char} (h : Padded token cs) : read cs = read token := by
  obtain ⟨before, after, hbefore, hafter, rfl⟩ := h
  have hright : ∀ ds, read (ds ++ after) = read ds := by
    induction after with
    | nil => exact fun ds => congrArg read (List.append_nil ds)
    | cons c after ih =>
      obtain ⟨hc, hrest⟩ := List.forall_mem_cons.1 hafter
      intro ds
      rw [List.append_cons, ih hrest, hconcat c hc]
  rw [hright]
  induction before with
  | nil => rfl
  | cons c before ih =>
    obtain ⟨hc, hrest⟩ := List.forall_mem_cons.1 hbefore
    rw [List.cons_append, hcons c hc, ih hrest]

namespace Padded

variable {token cs : List Char} (h : Padded token cs)
include h

theorem trim_eq (ht : Trimmed token) : trim cs = token :=
  (eq_of (fun _ => trim_cons) (fun _ => trim_concat) h).trans (trim_eq_self ht)

/-- A character that is no blank and not in the token is not in the padded token either. -/
theorem not_mem {c : Char} (hc : isBlank c = false) (ht : c ∉ token) : c ∉ cs := by
  obtain ⟨before, after, hbefore, hafter, rfl⟩ := h
  simp only [List.mem_append, not_or]
  exact ⟨⟨hbefore.not_mem hc, ht⟩, hafter.not_mem hc⟩

end Padded

theorem blanks_takeWhile (cs : List Char) : Blanks (cs.takeWhile isBlank) :=
  List.all_eq_true.1 List.all_takeWhile

/-- Any text is what trimming leaves of it, with blanks around that. -/
theorem padded_trim (cs : List Char) : Padded (trim cs) cs := by
  have hleft : cs.takeWhile isBlank ++ trimLeft cs = cs := List.takeWhile_append_dropWhile
  have hright : trim cs ++ ((trimLeft cs).reverse.takeWhile isBlank).reverse = trimLeft cs := by
    rw [trim, trimRight, ← List.reverse_append, List.takeWhile_append_dropWhile,
      List.reverse_reverse]
  refine ⟨cs.takeWhile isBlank, ((trimLeft cs).reverse.takeWhile isBlank).reverse,
    blanks_takeWhile cs, fun c hc => ?_, ?_⟩
  · exact blanks_takeWhile (trimLeft cs).reverse c (List.mem_reverse.1 hc)
  · rw [List.append_assoc, hright, hleft]

theorem trim_eq_nil {cs : List Char} : trim cs = [] ↔ Blanks cs := by
  refine ⟨fun h => ?_, trim_of_blanks⟩
  obtain ⟨before, after, hbefore, hafter, hcs⟩ := padded_trim cs
  rw [h, List.append_nil] at hcs
  rw [hcs]
  exact hbefore.append hafter

theorem mem_of_mem_trim {c : Char} {cs : List Char} (h : c ∈ trim cs) : c ∈ cs := by
  obtain ⟨before, after, -, -, hcs⟩ := padded_trim cs
  rw [hcs]
  exact List.mem_append_left _ (List.mem_append_right _ h)

section Pieces

variable {sep : Char}

theorem not_mem_of_mem_splitAll {cs piece : List Char} (h : piece ∈ splitAll sep cs) :
    sep ∉ piece := by
  induction cs generalizing piece with
  | nil =>
    obtain rfl : piece = [] := List.mem_singleton.1 h
    exact List.not_mem_nil
  | cons c cs ih =>
    by_cases hc : c = sep
    · rw [splitAll, if_pos hc] at h
      obtain rfl | hrest := List.mem_cons.1 h
      · exact List.not_mem_nil
      · exact ih hrest
    · rw [splitAll, if_neg hc] at h
      cases hs : splitAll sep cs with
      | nil => exact absurd hs (splitAll_ne_nil sep cs)
      | cons first pieces =>
        simp only [hs] at h ih
        obtain rfl | hrest := List.mem_cons.1 h
        · have hfirst := ih List.mem_cons_self
          simp only [List.mem_cons, not_or]
          exact ⟨fun heq => hc heq.symm, hfirst⟩
        · exact ih (List.mem_cons_of_mem _ hrest)

theorem not_mem_lastPiece (sep : Char) (cs : List Char) : sep ∉ lastPiece sep cs :=
  not_mem_of_mem_splitAll (List.getLast_mem (splitAll_ne_nil sep cs))

/-- The last word of a text that ends in a trimmed word is that word, whether or not anything else
but blanks stands before it. -/
theorem lastPiece_trim {word : List Char} (hne : word ≠ []) (h : Trimmed word)
    (hspace : ' ' ∉ word) (cs : List Char) : lastPiece ' ' (trim (cs ++ ' ' :: word)) = word := by
  have hword : (' ' :: word).dropWhile isBlank = word := dropWhile_eq_self h.1
  unfold trim trimLeft
  rw [List.dropWhile_append, hword]
  split
  · have hself : trimRight word = word := trimRight_append hne h []
    rw [hself, lastPiece_of_not_mem hspace]
  · rw [List.append_cons, trimRight_append hne h, ← List.append_cons, lastPiece_append_cons hspace]

/-- The pieces between the separators, each one trimmed. -/
def trimmedPieces (sep : Char) (cs : List Char) : List (List Char) := (splitAll sep cs).map trim

theorem trimmedPieces_cons {c : Char} (hc : isBlank c = true) (hsep : isBlank sep = false)
    (cs : List Char) : trimmedPieces sep (c :: cs) = trimmedPieces sep cs := by
  unfold trimmedPieces
  rw [splitAll, if_neg (ne_of_blank hc hsep)]
  cases hs : splitAll sep cs with
  | nil => exact absurd hs (splitAll_ne_nil sep cs)
  | cons piece pieces => simp only [List.map_cons, trim_cons hc]

/-- Another character at the end goes into the last piece. -/
theorem splitAll_concat {c : Char} (hne : c ≠ sep) (cs : List Char) : ∃ pieces last,
    splitAll sep cs = pieces ++ [last] ∧ splitAll sep (cs ++ [c]) = pieces ++ [last ++ [c]] := by
  induction cs with
  | nil => exact ⟨[], [], rfl, by simp [splitAll, hne]⟩
  | cons d cs ih =>
    obtain ⟨pieces, last, hs, hconcat⟩ := ih
    rw [List.cons_append, splitAll, splitAll, hs, hconcat]
    split
    · exact ⟨[] :: pieces, last, rfl, rfl⟩
    · cases pieces with
      | nil => exact ⟨[], d :: last, rfl, rfl⟩
      | cons piece pieces => exact ⟨(d :: piece) :: pieces, last, rfl, rfl⟩

theorem trimmedPieces_concat {c : Char} (hc : isBlank c = true) (hsep : isBlank sep = false)
    (cs : List Char) : trimmedPieces sep (cs ++ [c]) = trimmedPieces sep cs := by
  obtain ⟨pieces, last, hs, hconcat⟩ := splitAll_concat (ne_of_blank hc hsep) cs
  unfold trimmedPieces
  rw [hs, hconcat, List.map_append, List.map_append, List.map_singleton, List.map_singleton,
    trim_concat hc]

/-- Trimming the whole text beforehand changes nothing. -/
theorem trimmedPieces_trim (hsep : isBlank sep = false) (cs : List Char) :
    trimmedPieces sep (trim cs) = trimmedPieces sep cs :=
  ((padded_trim cs).eq_of (fun _ hc => trimmedPieces_cons hc hsep)
    fun _ hc => trimmedPieces_concat hc hsep).symm

end Pieces

end GuidedDataflow.Text

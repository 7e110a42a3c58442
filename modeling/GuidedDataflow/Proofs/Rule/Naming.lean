import GuidedDataflow.Proofs.Rule.Accepted

/-!
What the signature of an accepted rule is called. The rule was cut where its class, its return type
and its name end; the signature keeps only the text that is left, and looks for its class and its
name on its own. It finds the class in any case. The name it finds wherever no parenthesis
stands before the one that opens the parameters, unless the name has a space in it.
-/

namespace GuidedDataflow

open Text

namespace CompactRule

/-- What the signature has between its class and its parameters. -/
def heading (r : CompactRule) : List Char := ' ' :: r.result.bare ++ ' ' :: r.name

/-- The parameters in the signature, with what closes it. -/
def closing (r : CompactRule) : List Char :=
  joinWith [','] (r.params.map MarkedType.bare) ++ [')', '>']

theorem toList_signature (r : CompactRule) : r.signature.text.toList =
    '<' :: (r.owner.bare ++ ':' :: (r.heading ++ '(' :: r.closing)) := by
  simp [signature, heading, closing, RuleShape.write, RuleShape.map]

namespace Admissible

variable {r : CompactRule} (h : r.Admissible)
include h

theorem owner_bare_lacks : ':' ∉ r.owner.bare := fun hc =>
  h.readable.owner_lacks (List.mem_append_right _ hc)

/-- The class ends at the first colon, for the rule as well as for its signature. -/
theorem declaringClass?_signature :
    r.signature.declaringClass? = some (String.ofList (trim r.owner.bare)) := by
  unfold Signature.declaringClass?
  rw [toList_signature]
  simp only [splitOnce?_append h.owner_bare_lacks]
  rfl

/-- A parenthesis in the class comes before the colon. -/
theorem methodName?_of_mem (howner : '(' ∈ r.owner.bare) : r.signature.methodName? = none := by
  obtain ⟨front, later, howner, hfront⟩ := List.eq_append_cons_of_mem howner
  have hopen : splitOnce? '(' r.signature.text.toList =
      some ('<' :: front, later ++ ':' :: (r.heading ++ '(' :: r.closing)) := by
    rw [toList_signature, howner, List.append_assoc, List.cons_append, ← List.cons_append]
    apply splitOnce?_append
    simp [hfront]
  have hnone : splitOnce? ':' ('<' :: front) = none := by
    rw [splitOnce?_eq_none]
    have hcolon := h.owner_bare_lacks
    rw [howner] at hcolon
    simp_all
  simp [Signature.methodName?, hopen, hnone]

/-- Without other parentheses the name is looked for in front of the parameters. -/
theorem methodName?_of_not_mem (howner : '(' ∉ r.owner.bare) (hresult : '(' ∉ r.result.bare) :
    r.signature.methodName? = if (lastPiece ' ' (trim r.heading)).isEmpty then none
      else some (String.ofList (lastPiece ' ' (trim r.heading))) := by
  have hopen : splitOnce? '(' r.signature.text.toList =
      some ('<' :: r.owner.bare ++ ':' :: r.heading, r.closing) := by
    have hname : '(' ∉ r.name := h.readable.name.lacks
    have hsplit : r.signature.text.toList =
        ('<' :: r.owner.bare ++ ':' :: r.heading) ++ '(' :: r.closing := by
      simp [toList_signature]
    rw [hsplit]
    apply splitOnce?_append
    simp [heading, howner, hresult, hname]
  have hcolon : splitOnce? ':' ('<' :: r.owner.bare ++ ':' :: r.heading) =
      some ('<' :: r.owner.bare, r.heading) := by
    apply splitOnce?_append
    simp [h.owner_bare_lacks]
  unfold Signature.methodName?
  simp only [hopen, Option.bind_eq_bind, Option.bind_some]
  rw [hcolon]
  rfl

/-- Where the return type has no parenthesis, the name is found again if and only if the class has
none either and the name is a single word. -/
theorem methodName?_signature_iff (hresult : '(' ∉ r.result.bare) :
    r.signature.methodName? = some (String.ofList r.name) ↔
      '(' ∉ r.owner.bare ∧ ' ' ∉ r.name := by
  have hname : Token '(' r.name := h.readable.name
  by_cases howner : '(' ∈ r.owner.bare
  · simp [h.methodName?_of_mem howner, howner]
  rw [h.methodName?_of_not_mem howner hresult]
  constructor
  · intro hfound
    refine ⟨howner, ?_⟩
    split at hfound
    · cases hfound
    · rw [← String.ofList_injective (Option.some.inj hfound)]
      exact not_mem_lastPiece ' ' _
  · rintro ⟨-, hspace⟩
    have hword : lastPiece ' ' (trim r.heading) = r.name :=
      lastPiece_trim hname.ne_nil hname.trimmed hspace (' ' :: r.result.bare)
    rw [hword]
    exact if_neg fun hempty => hname.ne_nil (List.isEmpty_iff.1 hempty)

end Admissible

end CompactRule

namespace RuleGroup

/-- The signature of an accepted rule has the class of the rule, without its markers and without
blanks around it, and where no parenthesis stands in the return type, the name of the rule if and
only if none stands in the class and the name has no space in it. -/
theorem ofCompact_accessors_agree {rule : String} {g : RuleGroup} (h : ofCompact rule = .ok g) :
    ∃ (o : RuleOutline) (r : CompactRule), RuleOutline.read rule.toList = .ok o ∧
      CompactRule.ofOutline o = .ok r ∧
      g.signature.declaringClass? = some (String.ofList (trim r.owner.bare)) ∧
      ('(' ∉ r.result.bare → (g.signature.methodName? = some (String.ofList r.name) ↔
        '(' ∉ r.owner.bare ∧ ' ' ∉ r.name)) := by
  obtain ⟨r, hr, hspells, rfl⟩ := ofCompact_eq_ok_iff.1 h
  have hread := RuleShape.read_of_spells hr.readable hspells
  have hmarkers := CompactRule.ofOutline_write hr.owner hr.result hr.params
  exact ⟨_, r, hread, hmarkers, hr.declaringClass?_signature, hr.methodName?_signature_iff⟩

/-- A constructor whose class keeps a blank behind its marker. -/
def constructorText : String := "<ON{B} a.B :GO{F}void  <init> (ON{F}f(x))>"

def constructorRule : CompactRule :=
  ⟨⟨[⟨.on, .backward⟩], " a.B".toList⟩, ⟨[⟨.go, .forward⟩], "void".toList⟩, "<init>".toList,
    [⟨[⟨.on, .forward⟩], "f(x)".toList⟩]⟩

theorem ofCompact_accessors_agree_constructor :
    ∃ g, ofCompact constructorText = .ok g ∧ g.signature.text = "< a.B: void <init>(f(x))>" ∧
      g.signature.declaringClass? = some "a.B" ∧ g.signature.methodName? = some "<init>" := by
  have hread : ofCompact constructorText = .ok constructorRule.group := by rfl
  obtain ⟨o, r, ho, hr, hclass, hname⟩ := ofCompact_accessors_agree hread
  obtain rfl : constructorRule.map MarkedType.write = o :=
    Except.ok.inj (Eq.trans (by rfl) ho)
  obtain rfl : constructorRule = r := Except.ok.inj (Eq.trans (by rfl) hr)
  exact ⟨_, hread, by rfl, hclass, (hname (by decide)).2 (by decide)⟩

end RuleGroup

end GuidedDataflow

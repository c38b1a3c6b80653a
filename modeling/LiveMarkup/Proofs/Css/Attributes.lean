/-
Classes and identifiers as attributes.

A class is a word of the `class` attribute, and ASCII white space parts the words. The comparison with a word of an
attribute parts them in the same way, but it refuses a text with white space of any kind (`holds_includes_iff`). So the
class selector and the attribute selector for a name differ when there is white space in it that parts no words
(`holds_class_iff`). An identifier is always compared like the value of its attribute.
-/
import LiveMarkup.Css.Selector.Select
import Mathlib.Data.List.Basic

set_option autoImplicit false

namespace LiveMarkup

open Text

variable {e : Element} {name value word : String} {cs w : List Char}

namespace Text

theorem ne_nil_of_mem_wordsWhere {p : Char → Bool} (h : w ∈ wordsWhere p cs) : w ≠ [] := by
  have hkept := (List.mem_filter.1 h).2
  rintro rfl
  cases hkept

end Text

theorem Element.mem_classes_iff :
    name ∈ e.classes ↔ ∃ value, e.attribute? "class" = some value ∧ name.toList ∈ wordsWhere isAsciiSpace value.toList := by
  rw [Element.classes]
  cases e.attribute? "class" with
  | none => simp
  | some value =>
    simp only [List.mem_map, Option.some.injEq, exists_eq_left']
    constructor
    · rintro ⟨w, hw, rfl⟩
      rwa [String.toList_ofList]
    · exact fun h => ⟨name.toList, h, String.ofList_toList⟩

namespace Css

/-- **A text is compared with the words of a value** when it has no white space of any kind. -/
theorem Comparison.holds_includes_iff {value expected : List Char} :
    Comparison.includes.holds value expected = true ↔
      expected ∈ wordsWhere isAsciiSpace value ∧ ∀ c ∈ expected, isBlank c = false := by
  simp only [Comparison.holds, Bool.and_eq_true, Bool.not_eq_true', List.contains_iff_mem, List.any_eq_false,
    Bool.not_eq_true, List.isEmpty_eq_false_iff]
  constructor
  · rintro ⟨⟨-, hblank⟩, hmem⟩
    exact ⟨hmem, hblank⟩
  · rintro ⟨hmem, hblank⟩
    exact ⟨⟨ne_nil_of_mem_wordsWhere hmem, hblank⟩, hmem⟩

/-- What the comparison of an attribute with a text asks of an element. -/
theorem holds_attribute_iff {t : Tree} {id : NodeId} {comparison : Comparison} {expected : String} :
    (Simple.attribute ⟨name, some (comparison, expected), false⟩).holds t id e = true ↔
      ∃ value, e.attribute? name = some value ∧ comparison.holds value.toList expected.toList = true := by
  rw [Simple.holds, AttributeSelector.selects]
  cases e.attribute? name <;> simp

/-- **Classes and identifiers are attributes.** A class selector selects what the attribute selector for a word of
`class` selects, but for a name with white space in it: where that parts no words, the name can be a class, and the
attribute selector refuses it. An identifier selector selects what the attribute selector for `id` selects. -/
theorem holds_class_iff (t : Tree) (id : NodeId) (e : Element) (name : String) :
    ((Simple.attribute ⟨"class", some (.includes, name), false⟩).holds t id e = true ↔
        (Simple.class name).holds t id e = true ∧ ∀ c ∈ name.toList, isBlank c = false) ∧
      ((Simple.attribute ⟨"id", some (.equals, name), false⟩).holds t id e = true ↔
        (Simple.id name).holds t id e = true) := by
  constructor
  · rw [holds_attribute_iff, Simple.holds, List.contains_iff_mem, Element.mem_classes_iff]
    simp only [Comparison.holds_includes_iff]
    constructor
    · rintro ⟨value, hvalue, hmem, hblank⟩
      exact ⟨⟨value, hvalue, hmem⟩, hblank⟩
    · rintro ⟨⟨value, hvalue, hmem⟩, hblank⟩
      exact ⟨value, hvalue, hmem, hblank⟩
  · rw [holds_attribute_iff, Simple.holds, beq_iff_eq, Element.id?]
    simp only [Comparison.holds, beq_iff_eq, String.toList_inj]
    constructor
    · rintro ⟨value, hvalue, rfl⟩
      exact hvalue
    · exact fun hname => ⟨name, hname, rfl⟩

/-- A paragraph of the class `a b`, written with a no-break space. -/
def unbroken : Element := { Element.ofName "p" with attributes := [⟨"class", "a\u00a0b"⟩] }

/-- The name is one word, and the class selector for it selects the paragraph; the attribute selector does not. -/
theorem exists_class_not_includes : ∃ (t : Tree) (id : NodeId) (e : Element) (name : String),
    t.element? id = some e ∧ name ≠ "" ∧ (∀ c ∈ name.toList, isAsciiSpace c = false) ∧
      (Simple.class name).holds t id e = true ∧
      (Simple.attribute ⟨"class", some (.includes, name), false⟩).holds t id e = false := by
  have hone : "a\u00a0b".toList.any isAsciiSpace = false := by decide
  refine ⟨(Tree.empty.alloc (.element unbroken)).1, 1, unbroken, "a\u00a0b", by decide, by decide, fun c hc => ?_,
    by decide +kernel, by decide +kernel⟩
  exact Bool.eq_false_iff.2 (List.any_eq_false.1 hone c hc)

end Css

end LiveMarkup

import Mathlib.Computability.Language

/-!
# Patterns that are sequences of items

An item matches one character of a class, or any number of them.  A pattern is
a sequence of items, and its end may be tied to the end of the text.
-/

open Computability

namespace Text

variable {α : Type}

inductive Item (α : Type)
  | one (p : α → Bool)
  | star (p : α → Bool)

/-- The texts of one character that the class has. -/
def single (p : α → Bool) : Language α := {s | ∃ c, p c = true ∧ s = [c]}

namespace Item

def lang : Item α → Language α
  | one p => single p
  | star p => (single p)∗

end Item

/-- The texts that the items match one after the other. -/
def lang (items : List (Item α)) : Language α := (items.map Item.lang).prod

/-- The text starts with a match, which is all of it if the pattern is tied to
the end. -/
def Begins (items : List (Item α)) (atEnd : Bool) (text : List α) : Prop :=
  ∃ s ∈ lang items, ∃ rest, text = s ++ rest ∧ (atEnd = true → rest = [])

variable {items : List (Item α)} {atEnd : Bool} {p : α → Bool} {c : α} {text : List α}

theorem mem_single {s : List α} : s ∈ single p ↔ ∃ c, p c = true ∧ s = [c] := Iff.rfl

theorem begins_nil : Begins [] atEnd text ↔ (atEnd = true → text = []) := by
  simp [Begins, lang]

theorem mem_lang_cons {item : Item α} {s : List α} :
    s ∈ lang (item :: items) ↔ ∃ a ∈ item.lang, ∃ b ∈ lang items, a ++ b = s := by
  simp [lang, Language.mem_mul]

theorem not_begins_one_nil : ¬ Begins (.one p :: items) atEnd [] := by
  rintro ⟨s, hs, rest, htext, -⟩
  obtain ⟨a, ⟨c, -, rfl⟩, b, -, rfl⟩ := mem_lang_cons.1 hs
  simp at htext

theorem begins_one_cons :
    Begins (.one p :: items) atEnd (c :: text) ↔ p c = true ∧ Begins items atEnd text := by
  constructor
  · rintro ⟨s, hs, rest, htext, hend⟩
    obtain ⟨a, ⟨d, hd, rfl⟩, b, hb, rfl⟩ := mem_lang_cons.1 hs
    simp only [List.cons_append, List.nil_append, List.cons.injEq] at htext
    rcases htext with ⟨rfl, rfl⟩
    exact ⟨hd, b, hb, rest, rfl, hend⟩
  · rintro ⟨hc, b, hb, rest, rfl, hend⟩
    exact ⟨c :: b, mem_lang_cons.2 ⟨[c], ⟨c, hc, rfl⟩, b, hb, rfl⟩, rest, rfl, hend⟩

/-- A starred item matches nothing, or one character and then as before. -/
theorem mem_star {s : List α} :
    s ∈ (Item.star p).lang ↔ s = [] ∨ ∃ c t, p c = true ∧ t ∈ (Item.star p).lang ∧ s = c :: t := by
  have hstar : (Item.star p).lang = 1 + single p * (Item.star p).lang :=
    (Language.one_add_self_mul_kstar_eq_kstar _).symm
  nth_rewrite 1 [hstar]
  rw [Language.mem_add, Language.mem_one, Language.mem_mul]
  constructor
  · rintro (h | ⟨a, ⟨c, hc, rfl⟩, t, ht, rfl⟩)
    · exact .inl h
    · exact .inr ⟨c, t, hc, ht, rfl⟩
  · rintro (h | ⟨c, t, hc, ht, rfl⟩)
    · exact .inl h
    · exact .inr ⟨[c], ⟨c, hc, rfl⟩, t, ht, rfl⟩

theorem Begins.skip (h : Begins items atEnd text) : Begins (.star p :: items) atEnd text := by
  rcases h with ⟨b, hb, rest, rfl, hend⟩
  exact ⟨b, mem_lang_cons.2 ⟨[], mem_star.2 (.inl rfl), b, hb, rfl⟩, rest, rfl, hend⟩

theorem begins_star_nil : Begins (.star p :: items) atEnd [] ↔ Begins items atEnd [] := by
  refine ⟨?_, Begins.skip⟩
  rintro ⟨s, hs, rest, htext, hend⟩
  obtain ⟨a, ha, b, hb, rfl⟩ := mem_lang_cons.1 hs
  simp only [List.nil_eq, List.append_eq_nil_iff] at htext
  rcases htext with ⟨⟨rfl, rfl⟩, rfl⟩
  exact ⟨[], hb, [], rfl, hend⟩

theorem begins_star_cons :
    Begins (.star p :: items) atEnd (c :: text) ↔
      Begins items atEnd (c :: text) ∨ p c = true ∧ Begins (.star p :: items) atEnd text := by
  constructor
  · rintro ⟨s, hs, rest, htext, hend⟩
    obtain ⟨a, ha, b, hb, rfl⟩ := mem_lang_cons.1 hs
    rcases mem_star.1 ha with rfl | ⟨d, t, hd, ht, rfl⟩
    · exact .inl ⟨b, hb, rest, htext, hend⟩
    · simp only [List.cons_append, List.append_assoc, List.cons.injEq] at htext
      rcases htext with ⟨rfl, rfl⟩
      exact .inr ⟨hd, t ++ b, mem_lang_cons.2 ⟨t, ht, b, hb, rfl⟩, rest, by simp, hend⟩
  · rintro (h | ⟨hc, s, hs, rest, rfl, hend⟩)
    · exact h.skip
    · obtain ⟨a, ha, b, hb, rfl⟩ := mem_lang_cons.1 hs
      refine ⟨c :: a ++ b, ?_, rest, rfl, hend⟩
      exact mem_lang_cons.2 ⟨c :: a, mem_star.2 (.inr ⟨c, a, hc, ha, rfl⟩), b, hb, rfl⟩

/-- Some part of the text is a match, and the pattern may be tied to either end
of the text. -/
def Occurs (atStart : Bool) (items : List (Item α)) (atEnd : Bool) (text : List α) : Prop :=
  ∃ before, ∃ s ∈ lang items, ∃ after, text = before ++ s ++ after ∧
    (atStart = true → before = []) ∧ (atEnd = true → after = [])

theorem occurs_atStart : Occurs true items atEnd text ↔ Begins items atEnd text := by
  constructor
  · rintro ⟨before, s, hs, after, rfl, hstart, hend⟩
    exact ⟨s, hs, after, by simp [hstart], hend⟩
  · rintro ⟨s, hs, rest, rfl, hend⟩
    exact ⟨[], s, hs, rest, by simp, by simp, hend⟩

theorem occurs_nil : Occurs false items atEnd [] ↔ Begins items atEnd [] := by
  constructor
  · rintro ⟨before, s, hs, after, htext, -, hend⟩
    simp only [List.nil_eq, List.append_eq_nil_iff] at htext
    rcases htext with ⟨⟨-, rfl⟩, rfl⟩
    exact ⟨[], hs, [], rfl, hend⟩
  · rintro ⟨s, hs, rest, htext, hend⟩
    exact ⟨[], s, hs, rest, by simpa using htext, by simp, hend⟩

/-- A match starts at the first character or later. -/
theorem occurs_cons :
    Occurs false items atEnd (c :: text) ↔
      Begins items atEnd (c :: text) ∨ Occurs false items atEnd text := by
  constructor
  · rintro ⟨before, s, hs, after, htext, -, hend⟩
    cases before with
    | nil => exact .inl ⟨s, hs, after, by simpa using htext, hend⟩
    | cons d before =>
      simp only [List.cons_append, List.cons.injEq] at htext
      exact .inr ⟨before, s, hs, after, by simpa using htext.2, by simp, hend⟩
  · rintro (⟨s, hs, rest, htext, hend⟩ | ⟨before, s, hs, after, rfl, -, hend⟩)
    · exact ⟨[], s, hs, rest, by simpa using htext, by simp, hend⟩
    · exact ⟨c :: before, s, hs, after, by simp, by simp, hend⟩

end Text

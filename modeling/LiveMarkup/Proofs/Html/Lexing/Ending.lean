/-
The end of a run of the markup lexer.

The machine makes at most five steps for each character and a few more (`after_eq_none`), and at the end
of the text it reports that end in fewer steps than the run allows (`ends_of_rest_nil`). So a run is never
stopped, and it reports the end of the text once, as its last token (`lex_ends`).
-/
import LiveMarkup.Proofs.Html.Lexing.Layout

set_option autoImplicit false

namespace LiveMarkup.Html

open Text

namespace Lexer

/-- The machine after some steps, if it has not reported the end of the text by then. -/
def after : Nat → Lexer → Option Lexer
  | 0, l => some l
  | n + 1, l => l.step.next.bind (after n)

theorem after_succ_of_some {l m : Lexer} (h : l.step.next = some m) (n : Nat) :
    l.after (n + 1) = m.after n := by
  rw [after, h, Option.bind_some]

/-- The steps are a run, with the tokens that they report. -/
theorem reads_of_after {l m : Lexer} {n : Nat} (h : l.after n = some m) : ∃ ts, Reads l ts m := by
  induction n generalizing l with
  | zero => exact ⟨[], Option.some.inj h ▸ .refl l⟩
  | succ n ih =>
    obtain ⟨next, hnext, hafter⟩ := Option.bind_eq_some_iff.1 h
    obtain ⟨ts, hreads⟩ := ih hafter
    exact ⟨_, .step hnext hreads⟩

/-- The steps move on in the text. -/
theorem moves_after {l m : Lexer} {n : Nat} (h : l.after n = some m) : Moves l m := by
  obtain ⟨ts, hreads⟩ := reads_of_after h
  exact hreads.moves

/-- **Every run ends**: the measure bounds its steps. -/
theorem after_eq_none {l : Lexer} {n : Nat} (h : l.measure < n) : l.after n = none := by
  induction n generalizing l with
  | zero => exact absurd h (Nat.not_lt_zero _)
  | succ n ih =>
    cases hnext : l.step.next with
    | none => rw [after, hnext, Option.bind_none]
    | some m =>
      have hlt := progress_step l m hnext
      rw [after_succ_of_some hnext]
      exact ih (by omega)

/-- The last step reports the end of the text where it stands. -/
theorem getLast?_of_next_none {l : Lexer} (h : l.step.next = none) :
    l.step.tokens.getLast? = some (.endOfFile l.offset) ∧ l.rest = [] := by
  have ha := step_anatomy l
  generalize l.step = s at h ha
  cases ha with
  | finish cs errors hr => exact ⟨List.getLast?_concat, hr⟩
  | cut start token errors hr => exact ⟨rfl, hr⟩
  | draft => cases h
  | text => cases h
  | startTag => cases h
  | other => cases h

/-- **At the end of the text the machine reports the end**, in no more steps than its state has rank. -/
theorem ends_of_rest_nil {l : Lexer} (h : l.rest = []) :
    ∃ k ≤ rank l.state, ∃ last, l.after k = some last ∧ last.step.next = none ∧
      last.step.tokens.getLast? = some (.endOfFile l.offset) := by
  -- by induction on the run: nothing is left to consume, so every step lowers the rank
  induction l using tokens.induct with
  | case1 l hnext => exact ⟨0, Nat.zero_le _, l, rfl, hnext, (getLast?_of_next_none hnext).1⟩
  | case2 l m hnext ih =>
    obtain ⟨eaten, hrest, hoffset⟩ := moves_step hnext
    obtain ⟨heaten, hm⟩ := List.append_eq_nil_iff.1 (hrest.symm.trans h)
    have hlt := progress_step l m hnext
    simp only [measure, h, hm, List.length_nil, Nat.mul_zero, Nat.zero_add] at hlt
    obtain ⟨k, hk, last, hafter, hlast, htokens⟩ := ih hm
    have hsame : m.offset = l.offset := by rw [hoffset, heaten, byteLength, Nat.add_zero]
    exact ⟨k + 1, by omega, last, (after_succ_of_some hnext k).trans hafter, hlast, hsame ▸ htokens⟩

end Lexer

/-- **The lexer ends every text by itself.** Its steps come to an end, the run is not stopped on the way
and gives their tokens, the end of the text is reported once, last, and at its length, and a machine that
stands at the end of the text reports it in the steps that are allowed there. -/
theorem lex_ends (text : String) :
    (Lexer.start text.toList).after (5 * text.length + 1) = none ∧
      (Lexer.start text.toList).stepsAtEnd ≤ Lexer.maxStepsAtEnd ∧
      tokenize text = (Lexer.start text.toList).tokens ∧
      (∃ ts, tokenize text = ts ++ [.endOfFile text.utf8ByteSize] ∧ ∀ t ∈ ts, t.isEndOfFile = false) ∧
      ∀ n l, (Lexer.start text.toList).after n = some l → l.rest = [] →
        ∃ k < Lexer.maxStepsAtEnd, ∃ last, l.after k = some last ∧ last.step.next = none ∧
          last.step.tokens.getLast? = some (.endOfFile text.utf8ByteSize) := by
  have hmeasure : (Lexer.start text.toList).measure = 5 * text.length := by
    rw [Lexer.measure, ← String.length_toList]
    rfl
  obtain ⟨ts, hts, hnone⟩ := Lexer.tokens_end (.start text.toList)
  have hend : (Lexer.start text.toList).offset + byteLength (Lexer.start text.toList).rest = text.utf8ByteSize := by
    rw [utf8ByteSize_eq]
    exact Nat.zero_add _
  refine ⟨Lexer.after_eq_none (by omega), (Lexer.stepsAtEnd_le _).trans (by decide), tokenize_eq text,
    ⟨ts, by rw [tokenize_eq, hts, hend], ?_⟩, ?_⟩
  · intro t ht
    cases t with
    | endOfFile n => exact absurd ht (hnone n)
    | _ => rfl
  · intro n l hafter hrest
    obtain ⟨eaten, heaten, hoffset⟩ := Lexer.moves_after hafter
    have hl : l.offset = text.utf8ByteSize := by
      rw [hoffset, ← hend, heaten, hrest, List.append_nil]
    obtain ⟨k, hk, last, hlast, hnext, htokens⟩ := Lexer.ends_of_rest_nil hrest
    have hrank := Lexer.rank_le l.state
    exact ⟨k, Nat.lt_of_le_of_lt (hk.trans hrank) (by decide), last, hlast, hnext, hl ▸ htokens⟩

end LiveMarkup.Html

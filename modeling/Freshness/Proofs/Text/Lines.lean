import Freshness.Text.Lines
import Mathlib.Data.List.Basic

/-!
# Lines that were written one by one

Texts that are written on lines of their own are read as these lines, unless a text is empty, goes
on after a newline or ends in what a line ends in.
-/

namespace Freshness
namespace Lines

/-- A text that can be kept on a line of its own. -/
structure Fits (text : String) : Prop where
  ne_nil : text.toList ≠ []
  no_newline : '\n' ∉ text.toList
  no_return : text.toList.getLast? ≠ some '\r'

/-- Nothing in a text ends a line. -/
structure Unbroken (text : String) : Prop where
  no_newline : '\n' ∉ text.toList
  no_return : text.toList.getLast? ≠ some '\r'

theorem Fits.unbroken {text : String} (h : Fits text) : Unbroken text :=
  ⟨h.no_newline, h.no_return⟩

theorem splitFrom_line {line : List Char} (hline : '\n' ∉ line) (letters rest : List Char) :
    splitFrom letters (line ++ '\n' :: rest) =
      (withoutReturn (line.reverse ++ letters)).reverse :: splitFrom [] rest := by
  induction line generalizing letters with
  | nil => rw [List.nil_append, splitFrom, if_pos rfl, List.reverse_nil, List.nil_append]
  | cons c line ih =>
      obtain ⟨hc, hrest⟩ := not_or.mp (mt List.mem_cons.mpr hline)
      rw [List.cons_append, splitFrom, if_neg (Ne.symm hc), ih hrest, List.reverse_cons,
        List.append_assoc, List.singleton_append]

/-- A line is read as it is unless it ends in what a line may end in. -/
theorem withoutReturn_reverse_eq_iff (line : List Char) :
    withoutReturn line.reverse = line.reverse ↔ line.getLast? ≠ some '\r' := by
  rw [← List.head?_reverse]
  unfold withoutReturn
  split
  next letters hreverse =>
    rw [hreverse]
    refine iff_of_false (fun h => ?_) (fun h => h rfl)
    have hlength := congrArg List.length h
    rw [List.length_cons] at hlength
    omega
  next hother =>
    refine iff_of_true rfl fun hhead => ?_
    obtain ⟨letters, hreverse⟩ := List.head?_eq_some_iff.mp hhead
    exact hother letters hreverse

/-- Texts that go on after no newline are read without what a line may end in. -/
theorem splitFrom_flatMap {texts : List String} (h : ∀ text ∈ texts, '\n' ∉ text.toList) :
    splitFrom [] (texts.flatMap fun text => text.toList ++ ['\n']) =
      texts.map fun text => (withoutReturn text.toList.reverse).reverse := by
  induction texts with
  | nil => rfl
  | cons text rest ih =>
      obtain ⟨hnewline, hrest⟩ := List.forall_mem_cons.mp h
      rw [List.flatMap_cons, List.append_assoc, List.singleton_append,
        splitFrom_line hnewline, List.append_nil, ih hrest, List.map_cons]

/-- No line goes on after a newline. -/
theorem newline_not_mem_splitFrom {letters text : List Char} (hletters : '\n' ∉ letters) :
    ∀ line ∈ splitFrom letters text, '\n' ∉ line := by
  have hwithout : ∀ letters : List Char, '\n' ∉ letters → '\n' ∉ withoutReturn letters := by
    intro letters h
    unfold withoutReturn
    split
    · exact fun hmem => h (List.mem_cons_of_mem _ hmem)
    · exact h
  fun_induction splitFrom letters text with
  | case1 => simp
  | case2 letters hne => simpa using hletters
  | case3 letters rest ih =>
      refine List.forall_mem_cons.mpr ⟨?_, ih (by simp)⟩
      simpa using hwithout letters hletters
  | case4 letters c rest hc ih => exact ih (by simp [hletters, Ne.symm hc])

/-- Texts that fit on lines are the lines that are read. -/
theorem nonempty_ofList {texts : List String} (h : ∀ text ∈ texts, Fits text) :
    nonempty (ofList texts) = texts := by
  have hlines : (texts.map fun text => (withoutReturn text.toList.reverse).reverse) =
      texts.map String.toList := by
    apply List.map_congr_left
    intro text htext
    rw [(withoutReturn_reverse_eq_iff _).mpr (h text htext).no_return, List.reverse_reverse]
  have hnonempty : (texts.map String.toList).filter (· ≠ []) = texts.map String.toList := by
    rw [List.filter_eq_self]
    intro line hline
    obtain ⟨text, htext, rfl⟩ := List.mem_map.mp hline
    simpa using (h text htext).ne_nil
  rw [nonempty, ofList, String.toList_ofList,
    splitFrom_flatMap fun text htext => (h text htext).no_newline, hlines, hnonempty, List.map_map]
  conv_rhs => rw [← List.map_id texts]
  exact List.map_congr_left fun text _ => String.ofList_toList

/-- Only texts that fit on lines are the lines that are read. -/
theorem fits_of_nonempty_ofList {texts : List String} (h : nonempty (ofList texts) = texts) :
    ∀ text ∈ texts, Fits text := by
  have hline : ∀ text ∈ texts, text.toList ≠ [] ∧ '\n' ∉ text.toList := by
    intro text htext
    rw [← h] at htext
    obtain ⟨line, hline, rfl⟩ := List.mem_map.mp htext
    obtain ⟨hmem, hne⟩ := List.mem_filter.mp hline
    rw [String.toList_ofList]
    exact ⟨by simpa using hne, newline_not_mem_splitFrom (by simp) line hmem⟩
  rw [nonempty, ofList, String.toList_ofList,
    splitFrom_flatMap fun text htext => (hline text htext).2] at h
  -- as many lines are read as there are texts, so none of them is left out
  have hall : ∀ line ∈ texts.map fun text => (withoutReturn text.toList.reverse).reverse,
      decide (line ≠ []) = true := by
    have hlength := congrArg List.length h
    rw [List.length_map] at hlength
    rw [← List.length_filter_eq_length_iff, hlength, List.length_map]
  rw [List.filter_eq_self.mpr hall, List.map_map] at h
  have hsame := List.map_inj_left.mp (h.trans (List.map_id texts).symm)
  intro text htext
  refine ⟨(hline text htext).1, (hline text htext).2, ?_⟩
  have hletters := congrArg String.toList (hsame text htext)
  simp only [Function.comp_apply, String.toList_ofList, id_eq] at hletters
  rw [← withoutReturn_reverse_eq_iff, ← List.reverse_inj, hletters, List.reverse_reverse]

end Lines
end Freshness

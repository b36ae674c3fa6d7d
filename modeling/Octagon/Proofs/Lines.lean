import Mathlib
import Octagon.Statistic.Basic

/-!
The lines of a statistic. A number that is not negative is written as one line, with the label, the
name and the number in decimal. A negative number is written as two, one with its sign and one with
its digits, so no line has the number itself.
-/

namespace Octagon

/-- The text consists of the lines: each is ended by a line break and has none inside. -/
def Lined (text : String) (lines : List String) : Prop :=
  text = String.join (lines.map (· ++ "\n")) ∧ ∀ l ∈ lines, '\n' ∉ l.toList

/-- A statistic without the line break after it, its name being all names joined by underscores. -/
def entry (label : String) (names : List String) (value : String) : String :=
  label ++ " " ++ "_".intercalate names ++ "=" ++ value

/-! ### Lines -/

/-- Split at its breaks a text shows its lines, and nothing after the last one. -/
theorem Lined.splitOn_eq {lines : List String} : ∀ {text : String}, Lined text lines →
    text.toList.splitOn '\n' = lines.map String.toList ++ [[]] := by
  induction lines with
  | nil =>
    rintro _ ⟨rfl, -⟩
    rfl
  | cons l lines ih =>
    rintro _ ⟨rfl, hbreak⟩
    obtain ⟨hl, hlines⟩ := List.forall_mem_cons.1 hbreak
    have hrest := ih ⟨rfl, hlines⟩
    have hfirst : (String.join ((l :: lines).map (· ++ "\n"))).toList =
        l.toList ++ '\n' :: (String.join (lines.map (· ++ "\n"))).toList := by
      simp
    rw [hfirst, List.splitOn_append_cons_self_of_not_mem hl, hrest, List.map_cons, List.cons_append]

/-- A text falls into lines in one way only. -/
theorem Lined.unique {text : String} {lines lines' : List String} (h : Lined text lines)
    (h' : Lined text lines') : lines = lines' := by
  have hsplit := h.splitOn_eq.symm.trans h'.splitOn_eq
  have hinj : Function.Injective String.toList := fun _ _ => String.toList_inj.1
  exact List.map_injective_iff.2 hinj (List.append_cancel_right hsplit)

/-! ### Decimal numbers -/

theorem toString_of_nonneg {v : Int} (h : 0 ≤ v) : toString v = toString v.natAbs := by
  obtain ⟨m, rfl⟩ := Int.eq_ofNat_of_zero_le h
  rfl

theorem toString_of_neg {v : Int} (h : v < 0) : toString v = "-" ++ toString v.natAbs := by
  cases v with
  | ofNat m => exact absurd h (Int.not_lt.2 (Int.natCast_nonneg m))
  | negSucc m => rfl

/-- Digits are no line breaks. -/
theorem break_notMem_toString (m : Nat) : '\n' ∉ (toString m).toList := by
  intro hmem
  rw [Nat.toString_eq_repr, Nat.toList_repr] at hmem
  have hdigit := Nat.isDigit_of_mem_toDigits (by decide) (by decide) hmem
  revert hdigit
  decide

/-! ### Entries -/

/-- No line break comes in by joining names. -/
theorem break_notMem_intercalate {names : List String} (h : ∀ s ∈ names, '\n' ∉ s.toList) :
    '\n' ∉ ("_".intercalate names).toList := by
  induction names with
  | nil => simp
  | cons s names ih =>
    obtain ⟨hs, hnames⟩ := List.forall_mem_cons.1 h
    cases names with
    | nil => simpa using hs
    | cons t names =>
      have hrest := ih hnames
      rw [String.intercalate_cons_cons]
      simpa [hs] using hrest

/-- An entry has a line break only where its label, a name or its value has one. -/
theorem break_notMem_entry {label value : String} {names : List String}
    (hbreak : ∀ s ∈ label :: names, '\n' ∉ s.toList) (hvalue : '\n' ∉ value.toList) :
    '\n' ∉ (entry label names value).toList := by
  obtain ⟨hlabel, hnames⟩ := List.forall_mem_cons.1 hbreak
  have hname := break_notMem_intercalate hnames
  simp only [entry, String.toList_append, List.mem_append, not_or]
  exact ⟨⟨⟨⟨hlabel, by decide⟩, hname⟩, by decide⟩, hvalue⟩

namespace StatisticLogger

/-- A logger goes by all names attached to it. -/
theorem name_foldl_attach (parts : List String) (logger : StatisticLogger) :
    (parts.foldl attach logger).name = "_".intercalate (logger.name :: parts) := by
  induction parts generalizing logger with
  | nil => simp
  | cons part parts ih =>
    rw [List.foldl_cons, ih, attach, String.intercalate_cons_cons, String.intercalate_cons_append]

variable (label : String) (destination : Destination) (first : String) (parts : List String)

/-- Without a style a line is an entry with the names as they are. -/
theorem line_eq (value : String) :
    Sink.line ⟨label, none, destination⟩ (parts.foldl attach ⟨first⟩).name value =
      entry label (first :: parts) value ++ "\n" := by
  rw [name_foldl_attach]
  rfl

theorem write_of_nonneg {v : Int} (h : 0 ≤ v) :
    (parts.foldl attach ⟨first⟩).write ⟨label, none, destination⟩ (.number v) =
      entry label (first :: parts) (toString v) ++ "\n" := by
  simp [write, Datum.pieces, Int.not_lt.2 h, toString_of_nonneg h, line_eq]

theorem write_of_neg {v : Int} (h : v < 0) :
    (parts.foldl attach ⟨first⟩).write ⟨label, none, destination⟩ (.number v) =
      entry label (first :: parts) "-" ++ "\n" ++
        (entry label (first :: parts) (toString v.natAbs) ++ "\n") := by
  simp [write, Datum.pieces, h, line_eq]

/-- Whatever names are attached, exactly the numbers that are not negative are written as one line
with the label, the names and the number. A negative number is written as two lines, one with its
sign and one with its digits. -/
theorem write_number_iff (v : Int) :
    ((parts.foldl attach ⟨first⟩).write ⟨label, none, destination⟩ (.number v) =
        entry label (first :: parts) (toString v) ++ "\n" ↔ 0 ≤ v) ∧
      ((∀ s ∈ label :: first :: parts, '\n' ∉ s.toList) →
        Lined ((parts.foldl attach ⟨first⟩).write ⟨label, none, destination⟩ (.number v))
          (if 0 ≤ v then [entry label (first :: parts) (toString v)]
            else [entry label (first :: parts) "-",
              entry label (first :: parts) (toString v.natAbs)])) := by
  rcases lt_or_ge v 0 with hv | hv
  · rw [if_neg (Int.not_le.2 hv), write_of_neg label destination first parts hv]
    refine ⟨iff_of_false ?_ (Int.not_le.2 hv), fun hbreak => ⟨by simp, ?_⟩⟩
    · -- label and names are there twice, which is too long for one line
      intro heq
      have hlen := congrArg String.length heq
      have hbreak : "\n".length = 1 := rfl
      simp only [toString_of_neg hv, entry, String.length_append] at hlen
      omega
    · rw [List.forall_mem_cons, List.forall_mem_singleton]
      exact ⟨break_notMem_entry hbreak (by decide),
        break_notMem_entry hbreak (break_notMem_toString _)⟩
  · rw [if_pos hv, write_of_nonneg label destination first parts hv]
    refine ⟨iff_of_true rfl hv, fun hbreak => ⟨by simp, ?_⟩⟩
    rw [List.forall_mem_singleton, toString_of_nonneg hv]
    exact break_notMem_entry hbreak (break_notMem_toString _)

/-- The largest number of 64 bits, under two names. -/
theorem write_maximum : (∀ s ∈ ["%%", "n", "max"], '\n' ∉ s.toList) ∧
    Lined (((StatisticLogger.mk "n").attach "max").write ⟨"%%", none, .writer⟩
      (.number 9223372036854775807)) ["%% n_max=9223372036854775807"] := by
  have hbreak : ∀ s ∈ ["%%", "n", "max"], '\n' ∉ s.toList := by decide
  exact ⟨hbreak, (write_number_iff "%%" .writer "n" ["max"] 9223372036854775807).2 hbreak⟩

/-- A negative number is not written as one line, whatever line this may be. -/
theorem write_negative_two_lines :
    ((StatisticLogger.mk "a").attach "b").write ⟨"%%", none, .writer⟩ (.number (-5)) =
        "%% a_b=-\n%% a_b=5\n" ∧
      ¬∃ line, Lined (((StatisticLogger.mk "a").attach "b").write ⟨"%%", none, .writer⟩
        (.number (-5))) [line] := by
  have hwrite : ((StatisticLogger.mk "a").attach "b").write ⟨"%%", none, .writer⟩
      (.number (-5)) = "%% a_b=-\n%% a_b=5\n" := by decide +kernel
  have hlines : Lined "%% a_b=-\n%% a_b=5\n" ["%% a_b=-", "%% a_b=5"] :=
    ⟨by decide +kernel, by decide⟩
  refine ⟨hwrite, ?_⟩
  rintro ⟨line, hline⟩
  rw [hwrite] at hline
  cases hlines.unique hline

end StatisticLogger

end Octagon

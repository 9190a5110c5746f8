import SchemaDiff.Proofs.Concatenation
import SchemaDiff.Proofs.Parser.Onward

namespace SchemaDiff

open SchemaDiff.Parser

variable {d : Dialect}

namespace Script

-- What one call makes of the tokens ahead, and where it leaves the cursor.
def outcome (d : Dialect) (s : Cursor) : Except ParseError Script :=
  match script d s with
  | .ok statements _ => .ok statements
  | .error e _ => .error e

def resume (d : Dialect) (s : Cursor) : Cursor :=
  match script d s with
  | .ok _ u => u
  | .error _ u => u

-- Where the call with that number begins.
def cursorAt (d : Dialect) (text : String) (n : Nat) : Cursor :=
  (resume d)^[n] (.ofText d text)

theorem parseAgain_eq (times : Nat) (s : Cursor) :
    parseAgain d times s = (List.range times).map fun n => outcome d ((resume d)^[n] s) := by
  induction times generalizing s with
  | zero => rfl
  | succ times ih =>
      have hcall : parseAgain d (times + 1) s = outcome d s :: parseAgain d times (resume d s) := by
        unfold outcome resume
        rw [parseAgain]
        cases script d s <;> rfl
      rw [hcall, ih, List.range_succ_eq_map, List.map_cons, List.map_map]
      rfl

theorem getElem?_parseAgain {text : String} {times n : Nat} {r : Except ParseError Script} :
    (parseAgain d times (.ofText d text))[n]? = some r ↔
      n < times ∧ outcome d (cursorAt d text n) = r := by
  rw [parseAgain_eq, List.getElem?_map, Option.map_eq_some_iff]
  constructor
  · rintro ⟨m, hm, hr⟩
    obtain ⟨hlt, rfl⟩ := List.getElem?_eq_some_iff.mp hm
    rw [List.length_range] at hlt
    exact ⟨hlt, by simpa [cursorAt] using hr⟩
  · rintro ⟨hlt, hr⟩
    exact ⟨n, List.getElem?_range hlt, hr⟩

section Call

variable {s : Cursor}

theorem leadsTo_resume (s : Cursor) : s.LeadsTo (resume d s) := by
  unfold resume
  cases hscript : script d s with
  | ok statements u => exact Onward.script.ok hscript
  | error e u =>
      obtain ⟨o, ho, hraised⟩ := Onward.script.error hscript
      obtain ⟨v, hv, hu, -⟩ := hraised.stands
      exact (ho.trans hv).trans hu

-- An error stands between the two ends of its call.
theorem exists_of_error {e : ParseError} (h : outcome d s = .error e) :
    ∃ v, s.LeadsTo v ∧ v.LeadsTo (resume d s) ∧ e.span = v.current.span := by
  unfold outcome at h
  unfold resume
  cases hscript : script d s with
  | ok statements u =>
      rw [hscript] at h
      cases h
  | error e' u =>
      rw [hscript] at h
      cases h
      obtain ⟨o, ho, hraised⟩ := Onward.script.error hscript
      obtain ⟨v, hv, hu, hspan⟩ := hraised.stands
      exact ⟨v, ho.trans hv, hu, hspan⟩

theorem ahead_of_ok {statements : Script} (hinner : ∀ t ∈ s.ahead, t.kind ≠ .endOfInput)
    (h : outcome d s = .ok statements) : (resume d s).ahead = [] := by
  unfold outcome at h
  unfold resume
  cases hscript : script d s with
  | error e u =>
      rw [hscript] at h
      cases h
  | ok statements' u =>
      obtain ⟨all, v, hall, hv⟩ := bind_eq_ok.mp hscript
      cases hv
      exact (many_statements?_within (Cursor.within_self hinner) hall).2.1

-- At the end there is nothing left to read.
theorem call_of_end (h : s.ahead = []) : outcome d s = .ok [] ∧ resume d s = s := by
  have hstep : statements? d s = .ok none s := by
    refine bind_eq_ok.mpr ⟨s.current, s, rfl, ?_⟩
    have hkind : s.current.kind = .endOfInput := by simp [Cursor.current, h, Token.atEnd]
    rw [hkind]
    rfl
  have hscript : script d s = .ok [] s := by
    refine bind_eq_ok.mpr ⟨[], s, ?_, rfl⟩
    rw [many, hstep]
  unfold outcome resume
  rw [hscript]
  exact ⟨rfl, rfl⟩

end Call

section Calls

variable {text : String} {m n : Nat}

theorem cursorAt_succ (n : Nat) : cursorAt d text (n + 1) = resume d (cursorAt d text n) :=
  Function.iterate_succ_apply' _ _ _

theorem leadsTo_cursorAt (h : m ≤ n) : (cursorAt d text m).LeadsTo (cursorAt d text n) := by
  induction n, h using Nat.le_induction with
  | base => exact .refl _
  | succ n _ ih =>
      rw [cursorAt_succ]
      exact ih.trans (leadsTo_resume _)

theorem ordered_cursorAt (n : Nat) : (cursorAt d text n).Ordered :=
  (leadsTo_cursorAt (m := 0) (Nat.zero_le n)).ordered (Cursor.ordered_ofText d text)

theorem inner_cursorAt (n : Nat) : ∀ t ∈ (cursorAt d text n).ahead, t.kind ≠ .endOfInput :=
  fun t ht => Cursor.inner_ofText d text t
    ((leadsTo_cursorAt (m := 0) (Nat.zero_le n)).suffix.subset ht)

-- Once a call leaves the cursor where it was, so do all calls behind it.
theorem cursorAt_of_resume_eq (h : resume d (cursorAt d text m) = cursorAt d text m) (hle : m ≤ n) :
    cursorAt d text n = cursorAt d text m := by
  induction n, hle using Nat.le_induction with
  | base => rfl
  | succ n _ ih => rw [cursorAt_succ, ih, h]

-- Errors of later calls stand at later tokens.
theorem start_le_of_errors {e e' : ParseError} (hle : m ≤ n)
    (h : outcome d (cursorAt d text m) = .error e) (h' : outcome d (cursorAt d text n) = .error e') :
    e.span.start ≤ e'.span.start := by
  rcases Nat.eq_or_lt_of_le hle with rfl | hlt
  · rw [h] at h'
    cases h'
    exact Nat.le_refl _
  · obtain ⟨v, hv, hresume, hspan⟩ := exists_of_error h
    obtain ⟨v', hv', -, hspan'⟩ := exists_of_error h'
    rw [← cursorAt_succ] at hresume
    have hleads := (hresume.trans (leadsTo_cursorAt hlt)).trans hv'
    rw [hspan, hspan']
    exact hleads.start_le (hv.ordered (ordered_cursorAt m))

theorem start_le_of_error {e : ParseError} (h : outcome d (cursorAt d text n) = .error e) :
    e.span.start ≤ text.utf8ByteSize := by
  obtain ⟨v, hv, -, hspan⟩ := exists_of_error h
  have hleads : (Cursor.ofText d text).LeadsTo v := (leadsTo_cursorAt (Nat.zero_le n)).trans hv
  have hstart := (hleads.ordered (Cursor.ordered_ofText d text)).start_le
  rw [hspan]
  rw [hleads.stop] at hstart
  exact hstart

theorem outcome_of_ok {statements : Script} (hlt : m < n)
    (h : outcome d (cursorAt d text m) = .ok statements) : outcome d (cursorAt d text n) = .ok [] := by
  have hend := ahead_of_ok (inner_cursorAt m) h
  rw [← cursorAt_succ] at hend
  have hstays := (call_of_end (d := d) hend).2
  rw [cursorAt_of_resume_eq hstays hlt]
  exact (call_of_end hend).1

theorem outcome_of_stuck (hle : m ≤ n)
    (h : (resume d (cursorAt d text m)).current = (cursorAt d text m).current) :
    outcome d (cursorAt d text n) = outcome d (cursorAt d text m) := by
  have hstays := (leadsTo_resume (cursorAt d text m)).eq_of_current_eq (ordered_cursorAt m) h
  rw [cursorAt_of_resume_eq hstays hle]

end Calls

-- The results of one parser that is called again and again. It makes no step back, and it does not
-- start anew behind the end of the text or behind an error that it cannot get past.
structure NoStepBack (d : Dialect) (text : String) (results : List (Except ParseError Script)) :
    Prop where
  starts : ∀ (i j : Nat) (e e' : ParseError), i ≤ j → results[i]? = some (.error e) →
    results[j]? = some (.error e') → e.span.start ≤ e'.span.start
  inText : ∀ (i : Nat) (e : ParseError), results[i]? = some (.error e) →
    e.span.start ≤ text.utf8ByteSize
  ended : ∀ (i j : Nat) (statements : Script), i < j → j < results.length →
    results[i]? = some (.ok statements) → results[j]? = some (.ok [])
  stuck : ∀ (i j : Nat) (e : ParseError), i ≤ j → j < results.length →
    results[i]? = some (.error e) →
      (cursorAt d text (i + 1)).current = (cursorAt d text i).current → results[j]? = some (.error e)

theorem parseAgain_noStepBack (d : Dialect) (text : String) (times : Nat) :
    NoStepBack d text (parseAgain d times (.ofText d text)) := by
  have hlength : (parseAgain d times (.ofText d text)).length = times := by
    rw [parseAgain_eq, List.length_map, List.length_range]
  constructor
  · intro i j e e' hij hi hj
    obtain ⟨-, hi⟩ := getElem?_parseAgain.mp hi
    obtain ⟨-, hj⟩ := getElem?_parseAgain.mp hj
    exact start_le_of_errors hij hi hj
  · intro i e hi
    exact start_le_of_error (getElem?_parseAgain.mp hi).2
  · intro i j statements hij hj hi
    obtain ⟨-, hi⟩ := getElem?_parseAgain.mp hi
    exact getElem?_parseAgain.mpr ⟨hlength ▸ hj, outcome_of_ok hij hi⟩
  · intro i j e hij hj hi hsame
    obtain ⟨-, hi⟩ := getElem?_parseAgain.mp hi
    rw [cursorAt_succ] at hsame
    exact getElem?_parseAgain.mpr ⟨hlength ▸ hj, (outcome_of_stuck hij hsame).trans hi⟩

-- The first call stops behind the column of `MODIFY` and reports where the column begins. The
-- second one reads the semicolon and stops at a token that no call gets past.
theorem parseAgain_noStepBack_modify : ∃ e e' : ParseError,
    parseAgain .mysql 4 (.ofText .mysql "ALTER TABLE t MODIFY a INT PRIMARY KEY; x") =
        [.error e, .error e', .error e', .error e'] ∧
      e.fault = .constraintOnModify ⟨21, 22⟩ ∧ e.span.start ≤ e'.span.start ∧
      e'.span.start ≤ "ALTER TABLE t MODIFY a INT PRIMARY KEY; x".utf8ByteSize ∧
      (parseAgain .mysql 4 (.ofText .mysql "ALTER TABLE t MODIFY a INT PRIMARY KEY; x"))[3]? =
        some (.error e') := by
  have h := parseAgain_noStepBack .mysql "ALTER TABLE t MODIFY a INT PRIMARY KEY; x" 4
  have hresults : parseAgain .mysql 4 (.ofText .mysql "ALTER TABLE t MODIFY a INT PRIMARY KEY; x") =
      [.error ⟨.constraintOnModify ⟨21, 22⟩, .alterTableAction⟩,
        .error ⟨.unexpected .statement ⟨.identifier, "x", ⟨40, 41⟩⟩ none, .statement⟩,
        .error ⟨.unexpected .statement ⟨.identifier, "x", ⟨40, 41⟩⟩ none, .statement⟩,
        .error ⟨.unexpected .statement ⟨.identifier, "x", ⟨40, 41⟩⟩ none, .statement⟩] := by
    decide +kernel
  have hsame : (cursorAt .mysql "ALTER TABLE t MODIFY a INT PRIMARY KEY; x" 3).current =
      (cursorAt .mysql "ALTER TABLE t MODIFY a INT PRIMARY KEY; x" 2).current := by
    decide +kernel
  rw [hresults] at h ⊢
  exact ⟨_, _, rfl, rfl, h.starts 0 1 _ _ (by decide) rfl rfl, h.inText 1 _ rfl,
    h.stuck 2 3 _ (by decide) (by decide) rfl hsame⟩

end Script

end SchemaDiff

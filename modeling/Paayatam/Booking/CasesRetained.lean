/-
  Paayatam.Booking.CasesRetained

  What the operations that decide nothing do to the moderation cases: at most
  they open one, or count its reports.

  `CasesRetained` is a preorder on databases that admits every write of such an
  operation.  The two operations that decide a case are not among them;
  `Booking.CaseInterleaving` takes them apart.
-/

import Paayatam.Booking.Footprint

namespace Paayatam

open Lib

/-! ## The preorder -/

/-- A case stays as it is but for its report count, or is opened. -/
inductive Retained : Option CaseRow → Option CaseRow → Prop
  | absent : Retained none none
  | opened {c : CaseRow} (h : c.status = .OPEN) : Retained none (some c)
  | counted {c : CaseRow} (n : Nat) : Retained (some c) (some { c with reportCount := n })

namespace Retained

theorem refl (o : Option CaseRow) : Retained o o := by
  cases o with
  | none => exact .absent
  | some c => exact .counted c.reportCount

theorem trans {a b c : Option CaseRow} (h₁ : Retained a b) (h₂ : Retained b c) : Retained a c := by
  cases h₁ with
  | absent => exact h₂
  | opened h =>
      cases h₂ with
      | counted n => exact .opened h
  | counted m =>
      cases h₂ with
      | counted n => exact .counted n

end Retained

/-- Every case is retained. -/
def CasesRetained (s s' : Db) : Prop := ∀ k, Retained (s.cases.find? k) (s'.cases.find? k)

namespace CasesRetained

instance : Std.Refl CasesRetained := ⟨fun _ _ => .refl _⟩

instance : IsTrans Db CasesRetained := ⟨fun _ _ _ h₁ h₂ k => (h₁ k).trans (h₂ k)⟩

theorem of_eq {s s' : Db} (h : s'.cases = s.cases) : CasesRetained s s' := by
  intro k
  rw [h]
  exact .refl _

/-- A new case is open. -/
theorem of_insert {s s' : Db} {c : CaseRow} (h : s'.cases.rows = s.cases.rows ++ [c])
    (hopen : c.status = .OPEN) : CasesRetained s s' := by
  intro k
  have hfresh : ∀ x ∈ s.cases.rows, Row.key x ≠ Row.key c := fun x hx =>
    (Table.compatible_of_insert h hx).1
  rw [Table.find?_of_insert h]
  split
  · next hk =>
      have hnone : s.cases.find? k = none :=
        Table.find?_eq_none.2 fun x hx hxk => hfresh x hx (hxk.trans hk.symm)
      rw [hnone]
      exact .opened hopen
  · exact .refl _

/-- A new report count is not a decision. -/
theorem of_count {s s' : Db} {c : CaseRow} {n : Nat}
    (h : s.cases.Rewrites c (fun x => { x with reportCount := n }) s'.cases) :
    CasesRetained s s' := by
  intro k
  rw [h.find? rfl]
  split
  · next hk =>
      have hfound : s.cases.find? k = some c := Table.find?_eq_some.2 ⟨h.mem, hk⟩
      rw [hfound]
      exact .counted n
  · exact .refl _

end CasesRetained

/-! ## The writes it admits -/

instance : AdmitsWindows CasesRetained where
  insertEvent := @fun _ => .writeTable fun _ _ => .of_eq rfl
  updateEvent _ := .writeTable fun _ _ => .of_eq rfl
  insertParticipant := @fun _ => .writeTable fun _ _ => .of_eq rfl
  requestParticipant := @fun _ => .insertRowOrIgnore fun _ _ => .of_eq rfl
  updateParticipant _ := .writeTable fun _ _ => .of_eq rfl
  coins h := by
    rw [h]
    exact .of_eq rfl
  trust _ s _ s' hrun := by
    rw [applyTrust_trustOnly hrun]
    exact .of_eq rfl
  openCase hopen s _ s' hrun := by
    obtain ⟨t, ht, rfl⟩ := runs_insertRow.1 hrun
    exact .of_insert ht hopen
  countReports := by
    intro k n s u s' hrun
    obtain ⟨c, -, t, ht, rfl⟩ := runs_updateRow.1 hrun
    exact .of_count ht
  fileClaim := @fun _ => .insertRowOrIgnore fun _ _ => .of_eq rfl
  openWindow _ := .insertRowOrIgnore fun _ _ => .of_eq rfl
  emit := by
    intro m s u s' hrun
    rw [runs_emit.1 hrun]
    exact .of_eq rfl

end Paayatam

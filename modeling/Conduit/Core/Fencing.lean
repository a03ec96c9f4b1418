import Mathlib.Data.List.Count

/-!
# Fenced leases on one resource

The history of one leased resource is a list of grants and endings, newest
first.  A history is lawful when a grant is only made while nobody holds the
lease, under a token not granted before, and only the holder's grant ends.  In
a lawful history the holder's grant is the latest one, every other grant has
ended, and no grant ends twice.
-/

namespace Conduit.Fencing

variable {Token : Type*}

inductive Entry (Token : Type*)
  | grant (token : Token)
  | finish (token : Token)
  deriving DecidableEq

/-- The token of the lease in force, if there is one. -/
def holder : List (Entry Token) → Option Token
  | [] => none
  | .grant token :: _ => some token
  | .finish _ :: _ => none

inductive Lawful : List (Entry Token) → Prop
  | nil : Lawful []
  | grant {history : List (Entry Token)} {token : Token} (hlawful : Lawful history)
      (hfree : holder history = none) (hfresh : .grant token ∉ history) :
      Lawful (.grant token :: history)
  | finish {history : List (Entry Token)} {token : Token} (hlawful : Lawful history)
      (hholder : holder history = some token) : Lawful (.finish token :: history)

theorem grant_mem_of_holder {history : List (Entry Token)} {token : Token}
    (hholder : holder history = some token) : .grant token ∈ history := by
  cases history with
  | nil => cases hholder
  | cons entry history =>
      cases entry with
      | grant granted =>
          cases hholder
          exact List.mem_cons_self ..
      | finish ended => cases hholder

/-- Only a grant that was made can end. -/
theorem Lawful.grant_mem_of_finish_mem {history : List (Entry Token)} {token : Token}
    (hlawful : Lawful history) (hfinish : .finish token ∈ history) :
    .grant token ∈ history := by
  induction hlawful with
  | nil => cases hfinish
  | grant hlawful hfree hfresh ih =>
      rcases List.mem_cons.1 hfinish with heq | hmem
      · cases heq
      · exact List.mem_cons_of_mem _ (ih hmem)
  | finish hlawful hholder ih =>
      rcases List.mem_cons.1 hfinish with heq | hmem
      · cases heq
        exact List.mem_cons_of_mem _ (grant_mem_of_holder hholder)
      · exact List.mem_cons_of_mem _ (ih hmem)

/-- The lease in force is the one grant that has not ended. -/
theorem Lawful.holder_eq_some_iff {history : List (Entry Token)} {token : Token}
    (hlawful : Lawful history) :
    holder history = some token ↔ .grant token ∈ history ∧ .finish token ∉ history := by
  induction hlawful generalizing token with
  | nil => simp [holder]
  | @grant history granted hlawful hfree hfresh ih =>
      have hunended : .finish granted ∉ history := fun hfinish =>
        hfresh (hlawful.grant_mem_of_finish_mem hfinish)
      have hended : ¬ (.grant token ∈ history ∧ .finish token ∉ history) := by
        rw [← ih, hfree]
        exact nofun
      simp only [holder, Option.some.injEq, List.mem_cons, Entry.grant.injEq,
        reduceCtorEq, false_or]
      grind
  | @finish history ended hlawful hholder ih =>
      have hopen := ih.1 hholder
      have hothers : .grant token ∈ history → .finish token ∉ history → token = ended := by
        intro hgrant hfinish
        have hheld := ih.2 ⟨hgrant, hfinish⟩
        rw [hholder] at hheld
        exact (Option.some.inj hheld).symm
      simp only [holder, List.mem_cons, Entry.finish.injEq, reduceCtorEq, false_or]
      grind

/-- The lease in force is the latest grant. -/
theorem holder_latest {history : List (Entry Token)} {token : Token}
    (hholder : holder history = some token) :
    ∃ older, history = .grant token :: older := by
  cases history with
  | nil => cases hholder
  | cons entry older =>
      cases entry with
      | grant granted =>
          cases hholder
          exact ⟨older, rfl⟩
      | finish ended => cases hholder

theorem Lawful.count_finish_le_one [DecidableEq Token] {history : List (Entry Token)}
    (hlawful : Lawful history) (token : Token) :
    history.count (.finish token) ≤ 1 := by
  induction hlawful with
  | nil => simp
  | grant hlawful hfree hfresh ih => simpa [List.count_cons] using ih
  | @finish history ended hlawful hholder ih =>
      by_cases hsame : ended = token
      · subst hsame
        have hunended := (hlawful.holder_eq_some_iff.1 hholder).2
        simp [List.count_eq_zero.2 hunended]
      · rw [List.count_cons_of_ne (by simpa using hsame)]
        exact ih

end Conduit.Fencing

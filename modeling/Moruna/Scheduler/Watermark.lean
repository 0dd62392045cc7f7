/-
Moruna/Scheduler/Watermark.lean

Publication of a sink's commit watermark: `Watermark::claim`, `release` and the
loop of `publish`, for any number of threads.  A section under the mutex is one
step, and so is the call of `set_committed`, made outside the lock: any steps of
other threads may come between a claim, its call and its release.

* `Claim`, `Inv` : at most one thread holds the claim, and while none does nothing
  that was presented is unpublished.
-/
import Mathlib.Order.Nat
import Mathlib.Logic.Function.Basic

namespace Moruna.Scheduler

open Function List

/-! ### Under the mutex -/

/-- The commit watermark and who is publishing it. -/
structure Watermark where
  reached : Option ℕ
  published : Option ℕ
  publishing : Bool
deriving DecidableEq

namespace Watermark

variable (w : Watermark)

def takeClaim : Option ℕ × Watermark :=
  if w.publishing then (none, w)
  else
    match w.reached with
    | none => (none, w)
    | some reached =>
      if w.published.any (reached ≤ ·) then (none, w)
      else (some reached, { w with published := some reached, publishing := true })

/-- The first half of `claim`. -/
def record (next : ℕ) : Watermark :=
  if w.reached.all (· < next) then { w with reached := some next } else w

/-- Record `next`, and answer what this thread must publish, if it must. -/
def claim (next : ℕ) : Option ℕ × Watermark := (w.record next).takeClaim

/-- Hand the claim back, or keep it when something arrived meanwhile. -/
def release : Option ℕ × Watermark := { w with publishing := false }.takeClaim

/-- A resume starts from the manifest's watermark. -/
def resumedAt (committed : Option ℕ) : Watermark :=
  { w with reached := committed, published := committed }

variable {w : Watermark}

theorem reached_record {l : List ℕ} (next : ℕ) (h : w.reached = l.max?) :
    (w.record next).reached = (next :: l).max? := by
  rw [max?_cons, ← h, record]
  cases hr : w.reached with
  | none => simp
  | some r =>
    rcases lt_or_ge r next with hlt | hge
    · simp [hlt, max_eq_left hlt.le]
    · simp [hge.not_gt, max_eq_right hge, hr]

theorem record_fields (next : ℕ) :
    (w.record next).published = w.published ∧ (w.record next).publishing = w.publishing := by
  unfold record
  split <;> exact ⟨rfl, rfl⟩

/-- What the mutex's section answers when nobody holds the claim: all that was reached is
published, or this thread is to publish it. -/
theorem takeClaim_of_free (hfree : w.publishing = false)
    (hle : ∀ p ∈ w.published, ∃ r ∈ w.reached, p ≤ r) :
    (w.takeClaim = (none, w) ∧ w.published = w.reached) ∨
      ∃ r, w.reached = some r ∧ (∀ p ∈ w.published, p < r) ∧
        w.takeClaim = (some r, { w with published := some r, publishing := true }) := by
  obtain ⟨reached, published, publishing⟩ := w
  cases hfree
  cases reached with
  | none =>
    cases published with
    | none => exact .inl ⟨rfl, rfl⟩
    | some p => obtain ⟨r, hr, -⟩ := hle p rfl; cases hr
  | some r =>
    cases published with
    | none => exact .inr ⟨r, rfl, nofun, rfl⟩
    | some p =>
      obtain ⟨_, ⟨⟩, hpr⟩ := hle p rfl
      rcases hpr.eq_or_lt with rfl | hlt
      · exact .inl ⟨by simp [takeClaim], rfl⟩
      · refine .inr ⟨r, rfl, ?_, by simp [takeClaim, hlt]⟩
        rintro _ ⟨⟩
        exact hlt

end Watermark

/-! ### The threads -/

/-- Where a thread stands in `publish`. -/
inductive Stage
  | outside
  /-- About to lock and claim. -/
  | presenting (next : ℕ)
  /-- Told to publish `seq`; the call is next. -/
  | claimed (seq : ℕ)
  /-- The call has returned; about to lock and release. -/
  | called
deriving DecidableEq

/-- The head of the loop. -/
def Stage.loop : Option ℕ → Stage
  | none => .outside
  | some seq => .claimed seq

/-- Between the claim and its release. -/
def Stage.Holds : Stage → Prop
  | .outside | .presenting _ => False
  | .claimed _ | .called => True

/-- The watermark of a sink and the threads that publish it. -/
structure Publisher (T : Type*) where
  mark : Watermark
  stage : T → Stage
  /-- The values that were presented, the last first, and the resumed one. -/
  presented : List ℕ
  /-- The values `set_committed` was called with, the last first, and the resumed one. -/
  handed : List ℕ

namespace Publisher

variable {T : Type*}

def start (committed : Option ℕ) : Publisher T :=
  ⟨(⟨none, none, false⟩ : Watermark).resumedAt committed, fun _ => .outside, committed.toList,
    committed.toList⟩

/-- Thread `t` makes its next step; outside it calls `publish` with `v`. -/
def step [DecidableEq T] (s : Publisher T) (t : T) (v : ℕ) : Publisher T :=
  match s.stage t with
  | .outside => { s with stage := update s.stage t (.presenting v) }
  | .presenting next =>
    { s with
      mark := (s.mark.claim next).2
      stage := update s.stage t (.loop (s.mark.claim next).1)
      presented := next :: s.presented }
  | .claimed seq => { s with stage := update s.stage t .called, handed := seq :: s.handed }
  | .called =>
    { s with
      mark := s.mark.release.2
      stage := update s.stage t (.loop s.mark.release.1) }

def run [DecidableEq T] (s : Publisher T) (moves : List (T × ℕ)) : Publisher T :=
  moves.foldl (fun s move => s.step move.1 move.2) s

/-- Thread `u` is inside the loop and publishes a value as high as `v` next, or is told to
when it releases its claim. -/
def Owes (s : Publisher T) (u : T) (v : ℕ) : Prop :=
  ∃ seq, v ≤ seq ∧ (s.stage u = .claimed seq ∨ (s.stage u).Holds ∧ s.mark.release.1 = some seq)

/-! ### The invariant -/

variable {s : Publisher T} {t : T}

/-- Thread `t` alone holds the claim, on the highest value so far. -/
def Held (s : Publisher T) (t : T) : Prop :=
  s.mark.publishing = true ∧ (∀ u, (s.stage u).Holds ↔ u = t) ∧
    ∃ seq, s.mark.published = some seq ∧
      (s.stage t = .claimed seq ∧ (seq :: s.handed).Pairwise (· > ·) ∨
        s.stage t = .called ∧ s.handed.head? = some seq)

/-- Nobody holds the claim and all is published, or one thread does. -/
def Claim (s : Publisher T) : Prop :=
  (s.mark.publishing = false ∧ (∀ u, ¬ (s.stage u).Holds) ∧
      s.mark.published = s.mark.reached ∧ s.mark.published = s.handed.head?) ∨
    ∃ t, s.Held t

structure Inv (s : Publisher T) : Prop where
  reached : s.mark.reached = s.presented.max?
  le : ∀ p ∈ s.mark.published, ∃ r ∈ s.mark.reached, p ≤ r
  sorted : s.handed.Pairwise (· > ·)
  claim : s.Claim

theorem inv_start (committed : Option ℕ) : Inv (start committed : Publisher T) where
  reached := by cases committed <;> rfl
  le p hp := ⟨p, hp, le_rfl⟩
  sorted := by cases committed <;> simp [start]
  claim := .inl ⟨rfl, fun _ => id, rfl, by cases committed <;> rfl⟩

theorem Inv.held (h : Inv s) (ht : (s.stage t).Holds) : s.Held t := by
  rcases h.claim with ⟨-, hnone, -⟩ | ⟨u, hu⟩
  · exact absurd ht (hnone t)
  · rw [(hu.2.1 t).mp ht]
    exact hu

theorem Inv.covered {v : ℕ} (h : Inv s) (hv : v ∈ s.presented) :
    (∃ w ∈ s.handed, v ≤ w) ∨ ∃ u, s.Owes u v := by
  obtain ⟨r, hmax⟩ := Option.isSome_iff_exists.mp (isSome_max?_of_mem hv)
  have hr : s.mark.reached = some r := h.reached.trans hmax
  have hvr : v ≤ r := (max?_eq_some_iff.mp hmax).2 v hv
  rcases h.claim with ⟨-, -, heq, hline⟩ | ⟨u, hp, hone, seq, hseq, hat⟩
  · exact .inl ⟨r, mem_of_mem_head? (hline ▸ heq.trans hr), hvr⟩
  rcases le_or_gt v seq with hle | hgt
  · rcases hat with ⟨hst, -⟩ | ⟨-, hhead⟩
    · exact .inr ⟨u, seq, hle, .inl hst⟩
    · exact .inl ⟨seq, mem_of_mem_head? hhead, hle⟩
  · -- it came while `u` held the claim, and the release answers it
    refine .inr ⟨u, r, hvr, .inr ⟨(hone u).mpr rfl, ?_⟩⟩
    have hlt : seq < r := hgt.trans_le hvr
    simp [Watermark.release, Watermark.takeClaim, hr, hseq, hlt.not_ge]

variable [DecidableEq T]
variable {stage : T → Stage} {k : Stage} {w : Watermark} {presented : List ℕ}

/-- Who holds the claim when `t`, where nobody else holds it, has moved to `k`. -/
theorem holds_update (h : ∀ u, (stage u).Holds → u = t) (u : T) :
    (update stage t k u).Holds ↔ u = t ∧ k.Holds := by
  rcases eq_or_ne u t with rfl | hu
  · rw [update_self, and_iff_right rfl]
  · rw [update_of_ne hu]
    exact iff_of_false (fun hk => hu (h u hk)) fun hk => hu hk.1

/-- A thread that moves without the claim leaves it where it is. -/
theorem Claim.elsewhere (h : s.Claim) (hpub : w.published = s.mark.published)
    (hflag : w.publishing = s.mark.publishing)
    (hreached : w.publishing = true ∨ w.reached = s.mark.reached) (ht : ¬ (s.stage t).Holds)
    (hk : ¬ k.Holds) : Claim ⟨w, update s.stage t k, presented, s.handed⟩ := by
  have hsame : ∀ u, (update s.stage t k u).Holds ↔ (s.stage u).Holds := by
    intro u
    rcases eq_or_ne u t with rfl | hu
    · rw [update_self]
      exact iff_of_false hk ht
    · rw [update_of_ne hu]
  rcases h with ⟨hfree, hnone, heq, hline⟩ | ⟨u, hp, hone, hat⟩
  · have hr := hreached.resolve_left (by rw [hflag, hfree]; nofun)
    exact .inl ⟨hflag.trans hfree, fun u => (hsame u).not.mpr (hnone u),
      hpub.trans (heq.trans hr.symm), hpub.trans hline⟩
  · have hne : u ≠ t := fun hu => ht ((hone t).mpr hu.symm)
    refine .inr ⟨u, hflag.trans hp, fun x => (hsame x).trans (hone x), ?_⟩
    dsimp only
    rwa [hpub, update_of_ne hne]

/-- The section under the mutex when nobody else holds the claim. -/
theorem Inv.settle {handed : List ℕ} (hfree : w.publishing = false)
    (hreached : w.reached = presented.max?)
    (hle : ∀ p ∈ w.published, ∃ r ∈ w.reached, p ≤ r)
    (hsorted : handed.Pairwise (· > ·))
    (hothers : ∀ u, (stage u).Holds → u = t)
    (hline : w.published = handed.head?) :
    Inv ⟨w.takeClaim.2, update stage t (.loop w.takeClaim.1), presented, handed⟩ := by
  rcases w.takeClaim_of_free hfree hle with ⟨htake, heq⟩ | ⟨r, hr, hlt, htake⟩
  · rw [htake]
    refine ⟨hreached, hle, hsorted, .inl ⟨hfree, fun u hu => ?_, heq, hline⟩⟩
    exact ((holds_update hothers u).mp hu).2
  rw [htake]
  refine ⟨hreached, ?_, hsorted, .inr ⟨t, rfl, fun u => ?_, r, rfl, .inl ⟨update_self .., ?_⟩⟩⟩
  · rintro _ ⟨⟩
    exact ⟨r, hr, le_rfl⟩
  · exact (holds_update hothers u).trans (and_iff_left trivial)
  -- the line starts with what was published, which is lower, and decreases from there
  refine pairwise_cons.mpr ⟨fun x hx => ?_, hsorted⟩
  cases hl : handed with
  | nil => rw [hl] at hx; cases hx
  | cons p rest =>
    have hp : p < r := hlt p (by rw [hline, hl]; rfl)
    rw [hl] at hx hsorted
    rcases mem_cons.mp hx with rfl | hx
    · exact hp
    · exact ((pairwise_cons.mp hsorted).1 x hx).trans hp

/-- **One step of one thread.** -/
theorem Inv.step (h : Inv s) (t : T) (v : ℕ) : Inv (s.step t v) := by
  unfold Publisher.step
  cases hst : s.stage t with
  | outside =>
    have ht : ¬ (s.stage t).Holds := by rw [hst]; exact id
    exact ⟨h.reached, h.le, h.sorted, h.claim.elsewhere rfl rfl (.inr rfl) ht id⟩
  | presenting next =>
    have ht : ¬ (s.stage t).Holds := by rw [hst]; exact id
    obtain ⟨hpub, hflag⟩ := s.mark.record_fields next
    have hreached := Watermark.reached_record next h.reached
    have hle : ∀ p ∈ (s.mark.record next).published, ∃ r ∈ (s.mark.record next).reached, p ≤ r := by
      intro p hp
      obtain ⟨r, hr, hpr⟩ := h.le p (hpub ▸ hp)
      rw [hreached, max?_cons, ← h.reached, hr]
      exact ⟨_, rfl, hpr.trans (le_max_right _ _)⟩
    rcases h.claim with ⟨hfree, hnone, -, hline⟩ | ⟨u, hu⟩
    · exact .settle (hflag.trans hfree) hreached hle h.sorted (fun u hu => absurd hu (hnone u))
        (hpub.trans hline)
    -- another thread holds the claim and will see the value
    have hclaim : s.mark.claim next = (none, s.mark.record next) := by
      rw [Watermark.claim, Watermark.takeClaim, if_pos (hflag.trans hu.1)]
    dsimp only
    rw [hclaim]
    exact ⟨hreached, hle, h.sorted, h.claim.elsewhere hpub hflag (.inl (hflag.trans hu.1)) ht id⟩
  | claimed seq =>
    obtain ⟨hp, hone, seq', hseq, hat⟩ := h.held (t := t) (by rw [hst]; trivial)
    rw [hst] at hat
    obtain ⟨⟨⟩, hsort⟩ | ⟨⟨⟩, -⟩ := hat
    refine ⟨h.reached, h.le, hsort, .inr ⟨t, hp, fun u => ?_, seq, hseq,
      .inr ⟨update_self .., rfl⟩⟩⟩
    exact (holds_update (fun u => (hone u).mp) u).trans (and_iff_left trivial)
  | called =>
    obtain ⟨-, hone, seq, hseq, hat⟩ := h.held (t := t) (by rw [hst]; trivial)
    rw [hst] at hat
    obtain ⟨⟨⟩, -⟩ | ⟨-, hline⟩ := hat
    exact .settle rfl h.reached h.le h.sorted (fun u => (hone u).mp) (hseq.trans hline.symm)

theorem Inv.run (h : Inv s) (moves : List (T × ℕ)) : Inv (s.run moves) := by
  induction moves generalizing s with
  | nil => exact h
  | cons move moves ih => exact ih (h.step move.1 move.2)

/-- **Commit publication is monotone and complete.**  However the threads' steps are
interleaved, no two of them are between a claim and its release, so that their calls of
`set_committed` do not overlap; the values handed over increase strictly, from the resumed
watermark on; when no thread is inside `publish` the last of them is the highest presented
or resumed; and what was presented is at all times published or owed by a thread inside the
loop. -/
theorem publication_monotone_and_complete (committed : Option ℕ) (moves : List (T × ℕ)) :
    let s : Publisher T := (start committed).run moves
    (∀ t u, (s.stage t).Holds → (s.stage u).Holds → t = u) ∧ s.handed.Pairwise (· > ·) ∧
      ((∀ t, s.stage t = .outside) → s.handed.head? = s.presented.max?) ∧
      ∀ v ∈ s.presented, (∃ w ∈ s.handed, v ≤ w) ∨ ∃ u, s.Owes u v := by
  intro s
  have h : Inv s := (inv_start committed).run moves
  refine ⟨fun t u ht hu => ((h.held hu).2.1 t).mp ht, h.sorted, fun hout => ?_, fun v => h.covered⟩
  rcases h.claim with ⟨-, -, heq, hline⟩ | ⟨t, -, -, seq, -, hat⟩
  · exact hline.symm.trans (heq.trans h.reached)
  · simp [hout t] at hat

end Publisher

end Moruna.Scheduler

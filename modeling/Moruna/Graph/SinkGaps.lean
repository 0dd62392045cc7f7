/-
Moruna/Graph/SinkGaps.lean

How a sink's drive gets past the numbers no morsel will have.

The drive pops the morsels of the sink's queue and, where the sink's numbers can have gaps, looks
from time to time at the numbers it has not looked at yet: one that will never come is skipped, one
that will is left to its morsel, and at one that is not known yet it stops.  A morsel the error
policy skips at a stage is told to every sink it would have reached.

* `gaps_exact` — **gap decisions are final and exact**, and every number up to the last is
  written, skipped by the policy or skipped as a gap.
-/
import Moruna.Graph.Gaps

namespace Moruna.Graph

open List

namespace Topology

/-! ### The drive -/

/-- A sink and what its drive keeps for it; `written` and `skipped` are the calls it made. -/
structure SinkEnd where
  index : ℕ
  queue : ℕ
  floor : Option ℕ
  highest : Option ℕ
  gapsFrom : ℕ
  written : List ℕ
  skipped : List ℕ
  deriving DecidableEq

/-- A sink at the start of a run, or of a run resumed after `committed`. -/
def SinkEnd.resumed (index queue : ℕ) (committed : Option ℕ) : SinkEnd where
  index := index
  queue := queue
  floor := committed
  highest := none
  gapsFrom := committed.elim 0 fun c => min (c + 1) (2 ^ 64 - 1)
  written := []
  skipped := []

/-- Numbers no morsel will have can occur at this sink. -/
def gappy (t : Topology) (sink : ℕ) : Bool :=
  decide (1 < (t.pathsOf sink).length) ||
    (t.pathsOf sink).any fun path => decide (path.2.a ≠ 1) || decide (path.2.b ≠ 0)

/-- The loop of `skipGaps` over the `left` numbers from `start` on: where it stops, and what it
skips. -/
def passGaps (t : Topology) (queue : ℕ) (p : Produced) : ℕ → ℕ → ℕ × List ℕ
  | 0, start => (start, [])
  | left + 1, start =>
    match t.reaches queue start p with
    | some true => passGaps t queue p left (start + 1)
    | some false =>
      let (next, gaps) := passGaps t queue p left (start + 1)
      (next, start :: gaps)
    | none => (start, [])

/-- Skip the numbers this sink's queue will never deliver: up to the last a morsel can have here
when that is known, otherwise up to the highest the queue delivered. -/
def skipGaps (t : Topology) (e : SinkEnd) (p : Produced) : SinkEnd :=
  let bound := match t.lastAtSink e.index p with
    | some last => last
    | none => e.highest
  match bound with
  | none => e
  | some bound =>
    let (next, gaps) := t.passGaps e.queue p (bound + 1 - e.gapsFrom) e.gapsFrom
    { e with gapsFrom := next, skipped := e.skipped ++ gaps }

/-- What the drive does: it pops a morsel, or looks for gaps with what is known by then. -/
inductive DriveOp where
  | pop (seq : ℕ)
  | look (read finished : List (Option ℕ))
  deriving DecidableEq

/-- One turn of the write loop. -/
def drive (t : Topology) (e : SinkEnd) : DriveOp → SinkEnd
  | .pop seq =>
    -- a resumed run replays what this sink had committed
    if e.floor.any (fun f => decide (seq ≤ f)) then e
    else
      { e with
        highest := if e.highest.all (fun h => decide (h < seq)) then some seq else e.highest
        written := e.written ++ [seq] }
  | .look read finished => if t.gappy e.index then t.skipGaps e (t.produced read finished) else e

def driveAll (t : Topology) (e : SinkEnd) (ops : List DriveOp) : SinkEnd := ops.foldl t.drive e

/-! ### What the error policy skips -/

/-- The morsel `m` of queue `q` goes on as `m'` of queue `q'`. -/
inductive Leads (t : Topology) : ℕ → ℕ → ℕ → ℕ → Prop
  | here {q m : ℕ} : Leads t q m q m
  | on {q m s p q₁ q' m' : ℕ} {c : Consumer} : (t.inputs s)[p]? = some q →
      t.link q₁ = some ⟨.kernel s, c⟩ → Leads t q₁ (t.outSeq s p m) q' m' → Leads t q m q' m'

/-- The morsels that come on a queue, when the policy skips those of `dropped` at the stage that
took them.  A join gives a morsel when it has one on every port. -/
inductive Comes (t : Topology) (o : Outcome) (dropped : ℕ → ℕ → Prop) : ℕ → ℕ → Prop
  | source {q i seq : ℕ} {c : Consumer} : t.link q = some ⟨.source i, c⟩ → seq < o.count i →
      Comes t o dropped q seq
  | carried {q s p q' m : ℕ} {c : Consumer} : t.link q = some ⟨.kernel s, c⟩ →
      (t.taken s)[p]? = some q' →
      (∀ p₁ q₁ : ℕ, p₁ = p ∨ t.isAligned s → (t.inputs s)[p₁]? = some q₁ → Comes t o dropped q₁ m) →
      (∀ p₁ q₁ : ℕ, p₁ = p ∨ t.isAligned s → (t.inputs s)[p₁]? = some q₁ → ¬dropped q₁ m) →
      Comes t o dropped q (t.outSeq s p m)
  | finish {q s k : ℕ} {c : Consumer} : t.link q = some ⟨.kernel s, c⟩ → k < o.finish s →
      Comes t o dropped q (o.base s + k)

variable {t : Topology} {o : Outcome} {dropped : ℕ → ℕ → Prop}
variable {q n : ℕ} {e : SinkEnd}
variable {first last m q' s seq sink : ℕ} {link : Link} {ops : List DriveOp} {committed : Option ℕ}

theorem Leads.tail {m' p q₁ : ℕ} {c : Consumer} (h : t.Leads q m q' m')
    (hp : (t.inputs s)[p]? = some q') (hl : t.link q₁ = some ⟨.kernel s, c⟩) :
    t.Leads q m q₁ (t.outSeq s p m') := by
  induction h with
  | here => exact .on hp hl .here
  | on hp' hl' _ ih => exact .on hp' hl' (ih hp)

theorem Comes.on (h : t.Comes o dropped q seq) : t.On o q seq := by
  induction h with
  | source hl hn => exact .source hl hn
  | carried hl hp _ _ ih => exact .carried hl hp (ih _ _ (.inl rfl) (getElem?_inputs_of_taken hp))
  | finish hl hk => exact .finish hl hk

/-- The ports of a join number their output alike. -/
theorem outSeq_of_aligned (h : t.isAligned s) (p m : ℕ) : t.outSeq s p m = m := by
  unfold outSeq numberingPorts
  rw [if_pos h, if_pos le_rfl]

variable (hw : t.Wired) (hl : o.Lawful t) (ha : t.Alike o)

include hw hl ha

omit hl in
/-- **What is on a queue and does not come was skipped upstream.** -/
theorem On.comes_or_dropped (hq : t.link q = some link) (h : t.On o q n) :
    t.Comes o dropped q n ∨ ∃ q₀ m₀, dropped q₀ m₀ ∧ t.Leads q₀ m₀ q n := by
  refine hw.induct (P := fun _ q => ∀ n, t.On o q n →
    t.Comes o dropped q n ∨ ∃ q₀ m₀, dropped q₀ m₀ ∧ t.Leads q₀ m₀ q n) ?_ ?_ hq n h
  · exact fun _ q i c hq n h => .inl (.source hq ((on_source_iff hq).mp h))
  intro _ q s c hq h₁ h₂ ih n h
  rcases (on_kernel_iff hq).mp h with ⟨p, q', m, hp, hm, rfl⟩ | ⟨k, hk, rfl⟩
  · by_cases hall : ∀ p₁ q₁ : ℕ, p₁ = p ∨ t.isAligned s → (t.inputs s)[p₁]? = some q₁ →
        t.Comes o dropped q₁ m ∧ ¬dropped q₁ m
    · exact .inl (.carried hq hp (fun p₁ q₁ h₁ h₂ => (hall p₁ q₁ h₁ h₂).1)
        fun p₁ q₁ h₁ h₂ => (hall p₁ q₁ h₁ h₂).2)
    -- one of the ports the stage waits for has no morsel for it
    right
    push Not at hall
    obtain ⟨p₁, q₁, hwait, hin, hnot⟩ := hall
    obtain ⟨heq, hon⟩ : t.outSeq s p₁ m = t.outSeq s p m ∧ t.On o q₁ m := by
      have hin' := getElem?_inputs_of_taken hp
      rcases hwait with rfl | hal
      · rw [hin] at hin'
        cases hin'
        exact ⟨rfl, hm⟩
      · obtain ⟨q₀, h₀⟩ := hw.first_input h₁ h₂
        exact ⟨by rw [outSeq_of_aligned hal, outSeq_of_aligned hal],
          (ha s p₁ q₁ q₀ hal hin h₀ m).mpr ((ha s p q' q₀ hal hin' h₀ m).mp hm)⟩
    rw [← heq]
    rcases ih p₁ q₁ hin m hon with hc | ⟨q₀, m₀, hd, hlead⟩
    · exact ⟨q₁, m, hnot hc, .on hin hq .here⟩
    · exact ⟨q₀, m₀, hd, hlead.tail hin hq⟩
  · exact .inl (.finish hq hk)

omit hl ha in
/-- **A skip tells each sink the number it waits for.** -/
theorem mem_toSinks (h : t.Leads q m q' n)
    (hq : t.sinkInput sink = some q') : (sink, n) ∈ t.toSinks q m := by
  have hwithin : ∀ fuel, 0 < fuel →
      (∀ producer s p, t.link q = some ⟨producer, .kernel s p⟩ → t.stages + 1 < fuel + s) →
      (sink, n) ∈ t.toSinksWithin fuel q m := by
    induction h with
    | @here q m =>
      intro fuel hpos _
      obtain ⟨fuel, rfl⟩ := Nat.exists_eq_succ_of_ne_zero hpos.ne'
      obtain ⟨producer, hl⟩ := (hw.sink_iff sink q).mp hq
      unfold toSinksWithin
      rw [hl]
      exact mem_cons_self
    | @on q m s p q₁ q' n c hp hl _ ih =>
      intro fuel hpos hfuel
      obtain ⟨fuel, rfl⟩ := Nat.exists_eq_succ_of_ne_zero hpos.ne'
      obtain ⟨producer, hin⟩ := (hw.input_iff s p q).mp hp
      obtain ⟨h₁, h₂⟩ := hw.stage_ok hl rfl
      have hs := hfuel producer s p hin
      unfold toSinksWithin
      rw [hin]
      refine mem_flatMap.mpr ⟨q₁, (hw.output_iff s q₁).mpr ⟨c, hl⟩, ih hq fuel (by omega) ?_⟩
      intro producer' s' p' hl'
      rw [hl] at hl'
      cases hl'
      have hlt : s < s' := (hw.consumer_ok q₁ _ hl).2 s rfl
      omega
  refine (mem_insertionSort _).mpr (hwithin _ (Nat.succ_pos _) fun producer s p hl => ?_)
  obtain ⟨h₁, -⟩ : 1 ≤ s ∧ s ≤ t.stages := (hw.consumer_ok q _ hl).1
  omega

/-! ### A sink without gaps -/

/-- A queue whose numbers are a source's own has no gaps. -/
theorem on_of_le {i : ℕ} {path : List ℕ}
    {map : Affine} (hr : t.Route q path i map) (hone : map.a = 1) (hm : t.On o q m) (hnm : n ≤ m) :
    t.On o q n := by
  induction hr generalizing n m with
  | source hq =>
    rw [on_source_iff hq] at hm ⊢
    omega
  | @stage q s p q' i c path map map' hq hp hr hmap ih =>
    obtain ⟨h₁, h₂⟩ := hw.stage_ok hq rfl
    have hlt := lt_numberingPorts hp
    -- the stage numbers its output as its input
    obtain ⟨hone', hports⟩ : map.a = 1 ∧ t.numberingPorts s = 1 := by
      rcases Affine.followedBy_eq_some hmap with ⟨hle, rfl⟩ | ⟨-, rfl⟩
      · exact ⟨hone, by omega⟩
      · exact ⟨Nat.eq_one_of_mul_eq_one_right hone, Nat.eq_one_of_mul_eq_one_left hone⟩
    have hout : ∀ p m, t.outSeq s p m = m := fun p m => by
      unfold outSeq
      rw [if_pos hports.le]
    obtain rfl : p = 0 := by omega
    have hpass : ∀ seq, t.PassedOn o s seq ↔ t.On o q' seq := by
      intro seq
      constructor
      · rintro ⟨p₁, q₁, m₁, hp₁, hon, rfl⟩
        have := lt_numberingPorts hp₁
        obtain rfl : p₁ = 0 := by omega
        rw [hp] at hp₁
        cases hp₁
        rwa [hout]
      · exact fun hon => ⟨0, q', seq, hp, hon, (hout _ _).symm⟩
    -- below the base everything is passed on, and from there on the finish gives
    have hbelow : ∀ n < o.base s, t.On o q' n := by
      intro n hn
      by_contra hcon
      have hleast := (hl.base_least s h₁ h₂).2 (show ∀ seq, t.Arrives o s seq → seq < n by
        intro seq harr
        by_contra hge
        exact hcon (ih hone' ((hpass seq).mp (harr.passedOn ha)) (by omega)))
      omega
    rw [on_kernel_iff hq] at hm ⊢
    rcases lt_or_ge n (o.base s) with hn | hn
    · exact .inl ((hpass n).mpr (hbelow n hn))
    · rcases hm with hm | ⟨k, hk, rfl⟩
      · have := hm.arrives.lt_base hl h₁ h₂
        omega
      · exact .inr ⟨n - o.base s, by omega, by omega⟩

omit hl ha in
theorem exists_route {carried : List (List (ℕ × Affine))}
    (hc : t.arrivals = .ok carried) (hq : t.link q = some link) :
    ∃ path i m, t.Route q path i m := by
  refine hw.induct (P := fun _ q => ∃ path i m, t.Route q path i m) ?_ ?_ hq
  · exact fun _ q i c hq => ⟨_, _, _, .source hq⟩
  intro _ q s c hq h₁ h₂ ih
  obtain ⟨q', hq'⟩ := hw.first_input h₁ h₂
  obtain ⟨path, i, m, hr⟩ := ih 0 q' hq'
  obtain ⟨m', hm'⟩ := (arrivals_spec hw hc).2 s 0 q' i m path (taken_zero hq') hr
  exact ⟨_, _, _, .stage hq (taken_zero hq') hr hm'⟩

omit hw hl ha in
/-- **A sink that is not looked at has no gaps.** -/
theorem on_of_not_gappy (ht : t.Accepted) (hl : o.Lawful t) (ha : t.Alike o)
    (hq : t.sinkInput sink = some q) (hg : t.gappy sink = false) (hm : t.On o q m) (hnm : n ≤ m) :
    t.On o q n := by
  have hw := ht.wired
  obtain ⟨carried, hc, hpaths⟩ := ht.pathsOf_eq
  obtain ⟨producer, hlink⟩ := (hw.sink_iff sink q).mp hq
  obtain ⟨path, i, map, hr⟩ := exists_route hw hc hlink
  have hmem : (i, map) ∈ t.pathsOf sink := by
    rw [hpaths sink q hq]
    exact ((arrivals_spec hw hc).1 q _ hlink i map).mpr ⟨path, hr⟩
  have hone : map.a = 1 := by
    by_contra hne
    have hany : ((t.pathsOf sink).any fun path => decide (path.2.a ≠ 1) || decide (path.2.b ≠ 0))
        = true := any_eq_true.mpr ⟨_, hmem, by simp [hne]⟩
    unfold gappy at hg
    rw [hany, Bool.or_true] at hg
    cases hg
  exact on_of_le hw hl ha hr hone hm hnm

/-! ### The numbers looked at -/

variable {read finished : List (Option ℕ)}

omit ha in
theorem On.lt (h : t.On o q seq) : seq + 1 < 2 ^ 64 := by
  cases h with
  | @source _ i _ _ _ hn =>
    have := hl.count_fits i
    omega
  | @carried _ s p q' m c hq hp hm =>
    obtain ⟨h₁, h₂⟩ := hw.stage_ok hq rfl
    have harr : t.Arrives o s (t.outSeq s p m) := ⟨p, q', m, getElem?_inputs_of_taken hp, hm, rfl⟩
    have := harr.lt_base hl h₁ h₂
    have := hl.finish_fits s h₁ h₂
    omega
  | @finish _ s k c hq hk =>
    obtain ⟨h₁, h₂⟩ := hw.stage_ok hq rfl
    have := hl.finish_fits s h₁ h₂
    omega

theorem passGaps_spec (hk : Knows o read finished) : ∀ left start, start + left ≤ 2 ^ 64 →
      start ≤ (t.passGaps q (t.produced read finished) left start).1 ∧
      (t.passGaps q (t.produced read finished) left start).2.Pairwise (· < ·) ∧
      ∀ n, n ∈ (t.passGaps q (t.produced read finished) left start).2 ↔
        start ≤ n ∧ n < (t.passGaps q (t.produced read finished) left start).1 ∧ ¬t.On o q n := by
  intro left
  induction left with
  | zero =>
    intro start _
    refine ⟨le_rfl, .nil, fun n => ?_⟩
    simp only [passGaps, not_mem_nil, false_iff]
    rintro ⟨h₁, h₂, -⟩
    omega
  | succ left ih =>
    intro start hle
    obtain ⟨ihle, ihsorted, ihmem⟩ := ih (start + 1) (by omega)
    unfold passGaps
    cases hr : t.reaches q start (t.produced read finished) with
    | none =>
      refine ⟨le_rfl, .nil, fun n => ?_⟩
      simp only [not_mem_nil, false_iff]
      rintro ⟨h₁, h₂, -⟩
      omega
    | some b =>
      have hon := reaches_sound hw hl ha hk (by omega) hr
      cases b with
      | true =>
        refine ⟨by simp only; omega, ihsorted, fun n => ?_⟩
        rw [ihmem n]
        constructor
        · rintro ⟨h₁, h₂, h₃⟩
          exact ⟨by omega, h₂, h₃⟩
        rintro ⟨h₁, h₂, h₃⟩
        refine ⟨?_, h₂, h₃⟩
        rcases eq_or_lt_of_le h₁ with rfl | hlt
        · exact absurd (hon.mp rfl) h₃
        · exact hlt
      | false =>
        have hoff : ¬t.On o q start := fun h => by simpa using hon.mpr h
        refine ⟨by simp only; omega, ?_, fun n => ?_⟩
        · refine pairwise_cons.mpr ⟨fun n hn => ?_, ihsorted⟩
          have := ((ihmem n).mp hn).1
          omega
        simp only [mem_cons, ihmem n]
        constructor
        · rintro (rfl | ⟨h₁, h₂, h₃⟩)
          · exact ⟨le_rfl, by omega, hoff⟩
          · exact ⟨by omega, h₂, h₃⟩
        · rintro ⟨h₁, h₂, h₃⟩
          rcases eq_or_lt_of_le h₁ with rfl | hlt
          · exact .inl rfl
          · exact .inr ⟨hlt, h₂, h₃⟩

omit ha in
/-- With everything behind the queue known the loop looks at all of them. -/
theorem passGaps_total (hk : t.KnowsAll o q read finished)
    (hq : t.link q = some link) : ∀ left start, start + left ≤ 2 ^ 64 →
      (t.passGaps q (t.produced read finished) left start).1 = start + left := by
  intro left
  induction left with
  | zero => exact fun start _ => rfl
  | succ left ih =>
    intro start hle
    have hnext := ih (start + 1) (by omega)
    obtain ⟨b, hb⟩ := reaches_total hw hk hl hq (show start < 2 ^ 64 by omega)
    unfold passGaps
    cases b <;> simp only [hb, hnext] <;> omega

/-! ### Runs of the drive -/

omit hw hl ha

/-- What the drive does is what the run lets it do: it pops what comes, and what it knows is
right. -/
structure Follows (t : Topology) (o : Outcome) (dropped : ℕ → ℕ → Prop) (q : ℕ)
    (ops : List DriveOp) : Prop where
  pops : ∀ n, .pop n ∈ ops → t.Comes o dropped q n
  looks : ∀ read finished, .look read finished ∈ ops → Knows o read finished

/-- The drive has come to its end: its queue is closed and empty, and it looked a last time, when
what gives to the queue had ended. -/
structure Ended (t : Topology) (o : Outcome) (dropped : ℕ → ℕ → Prop) (q : ℕ)
    (ops : List DriveOp) : Prop where
  popped : ∀ n, t.Comes o dropped q n → .pop n ∈ ops
  looked : ∃ before read finished, ops = before ++ [.look read finished] ∧
    t.KnowsAll o q read finished

/-- What holds of a sink end while its drive runs: the numbers from `first` up to `gapsFrom` have
been looked at, and those of them that never come are skipped. -/
structure SinkEnd.Ok (t : Topology) (o : Outcome) (first : ℕ) (e : SinkEnd) : Prop where
  highest : ∀ h ∈ e.highest, t.On o e.queue h
  first_le : first ≤ e.gapsFrom
  sorted : e.skipped.Pairwise (· < ·)
  mem_skipped : ∀ n, n ∈ e.skipped ↔ first ≤ n ∧ n < e.gapsFrom ∧ ¬t.On o e.queue n

theorem SinkEnd.resumed_ok (sink q : ℕ) (committed : Option ℕ) :
    (SinkEnd.resumed sink q committed).Ok t o (SinkEnd.resumed sink q committed).gapsFrom where
  highest := by simp [SinkEnd.resumed]
  first_le := le_rfl
  sorted := .nil
  mem_skipped n := by
    simp only [SinkEnd.resumed, not_mem_nil, false_iff]
    rintro ⟨h₁, h₂, -⟩
    omega

include hw hl ha

/-- The numbers a look goes up to are on the queue. -/
theorem bound_on (hk : Knows o read finished)
    (hq : t.sinkInput e.index = some e.queue) (hhigh : ∀ h ∈ e.highest, t.On o e.queue h)
    {bound : ℕ}
    (h : (match t.lastAtSink e.index (t.produced read finished) with
      | some last => last | none => e.highest) = some bound) :
    t.On o e.queue bound := by
  cases hlast : t.lastAtSink e.index (t.produced read finished) with
  | none =>
    rw [hlast] at h
    exact hhigh bound h
  | some last =>
    rw [hlast] at h
    subst h
    exact (lastAtSink_spec hw hl ha hk hq hlast).1

theorem SinkEnd.Ok.skipGaps (hk : Knows o read finished) (hq : t.sinkInput e.index = some e.queue)
    (h : e.Ok t o first) : (t.skipGaps e (t.produced read finished)).Ok t o first := by
  unfold Topology.skipGaps
  simp only
  split
  · exact h
  rename_i bound hbound
  have hlt := (bound_on hw hl ha hk hq h.highest hbound).lt hw hl
  rcases lt_or_ge bound e.gapsFrom with hpast | hto
  · -- nothing is left to look at
    rw [show bound + 1 - e.gapsFrom = 0 by omega, passGaps, append_nil]
    exact h
  obtain ⟨hle, hsorted, hmem⟩ := passGaps_spec hw hl ha hk (q := e.queue)
    (bound + 1 - e.gapsFrom) e.gapsFrom (by omega)
  refine ⟨h.highest, h.first_le.trans hle, ?_, fun n => ?_⟩
  · refine pairwise_append.mpr ⟨h.sorted, hsorted, fun x hx y hy => ?_⟩
    have h₁ := ((h.mem_skipped x).mp hx).2.1
    have h₂ := ((hmem y).mp hy).1
    omega
  · rw [mem_append, h.mem_skipped, hmem]
    have := h.first_le
    constructor
    · rintro (⟨h₁, h₂, h₃⟩ | ⟨h₁, h₂, h₃⟩)
      · exact ⟨h₁, by simp only; omega, h₃⟩
      · exact ⟨by omega, h₂, h₃⟩
    · rintro ⟨h₁, h₂, h₃⟩
      rcases lt_or_ge n e.gapsFrom with hn | hn
      · exact .inl ⟨h₁, hn, h₃⟩
      · exact .inr ⟨hn, h₂, h₃⟩

/-- A look with everything behind the queue known gets past the last number. -/
theorem skipGaps_past (hk : Knows o read finished)
    (hall : t.KnowsAll o e.queue read finished) (hq : t.sinkInput e.index = some e.queue)
    (hlast : IsHighest (t.On o e.queue) (some last)) :
    last < (t.skipGaps e (t.produced read finished)).gapsFrom := by
  obtain ⟨l, hl'⟩ := lastAtSink_total hw hall hq
  obtain rfl := (lastAtSink_spec hw hl ha hk hq hl').unique hlast
  obtain ⟨producer, hlink⟩ := (hw.sink_iff _ _).mp hq
  have hlt := On.lt hw hl hlast.1
  unfold Topology.skipGaps
  rw [hl']
  rcases lt_or_ge last e.gapsFrom with hpast | hto
  · simp only [show last + 1 - e.gapsFrom = 0 by omega, passGaps]
    exact hpast
  · simp only [passGaps_total hw hl hall hlink (last + 1 - e.gapsFrom) e.gapsFrom (by omega)]
    omega

omit hw hl ha in
/-- The drive stays with its sink, its queue and its floor. -/
theorem drive_const (e : SinkEnd) (op : DriveOp) : (t.drive e op).index = e.index ∧
    (t.drive e op).queue = e.queue ∧ (t.drive e op).floor = e.floor := by
  cases op with
  | pop seq =>
    unfold drive
    simp only
    split <;> exact ⟨rfl, rfl, rfl⟩
  | look read finished =>
    unfold drive skipGaps
    simp only
    split
    · split <;> exact ⟨rfl, rfl, rfl⟩
    · exact ⟨rfl, rfl, rfl⟩

theorem SinkEnd.Ok.drive
    (hq : t.sinkInput e.index = some e.queue) (h : e.Ok t o first) {op : DriveOp}
    (hpop : ∀ n, op = .pop n → t.On o e.queue n)
    (hlook : ∀ read finished, op = .look read finished → Knows o read finished) :
    (t.drive e op).Ok t o first := by
  cases op with
  | look read finished =>
    unfold Topology.drive
    simp only
    split
    · exact h.skipGaps hw hl ha (hlook read finished rfl) hq
    · exact h
  | pop seq =>
    unfold Topology.drive
    simp only
    split
    · exact h
    refine ⟨fun x hx => ?_, h.first_le, h.sorted, h.mem_skipped⟩
    simp only at hx
    split at hx
    · cases hx
      exact hpop seq rfl
    · exact h.highest x hx

omit hw hl ha in
theorem driveAll_const (e : SinkEnd) (ops : List DriveOp) :
    (t.driveAll e ops).index = e.index ∧ (t.driveAll e ops).queue = e.queue := by
  induction ops generalizing e with
  | nil => exact ⟨rfl, rfl⟩
  | cons op ops ih =>
    obtain ⟨h₁, h₂, -⟩ := drive_const (t := t) e op
    exact ⟨(ih _).1.trans h₁, (ih _).2.trans h₂⟩

theorem SinkEnd.Ok.driveAll : ∀ {e : SinkEnd}, t.sinkInput e.index = some e.queue → e.Ok t o first →
      t.Follows o dropped e.queue ops → (t.driveAll e ops).Ok t o first := by
  induction ops with
  | nil => exact fun _ h _ => h
  | cons op ops ih =>
    intro e hq h hf
    obtain ⟨hindex, hqueue, -⟩ := drive_const (t := t) e op
    refine ih (e := t.drive e op) (by rwa [hindex, hqueue]) (h.drive hw hl ha hq ?_ ?_) ?_
    · rintro n rfl
      exact (hf.pops n mem_cons_self).on
    · rintro read finished rfl
      exact hf.looks read finished mem_cons_self
    · rw [hqueue]
      exact ⟨fun n hn => hf.pops n (mem_cons_of_mem _ hn),
        fun r f hrf => hf.looks r f (mem_cons_of_mem _ hrf)⟩

omit hw hl ha

/-- What is popped above the floor is written. -/
theorem mem_written : ∀ {e : SinkEnd},
    (n ∈ e.written ∨ .pop n ∈ ops ∧ e.floor.any (fun f => decide (n ≤ f)) = false) →
      n ∈ (t.driveAll e ops).written := by
  induction ops with
  | nil =>
    rintro e (h | ⟨h, -⟩)
    · exact h
    · cases h
  | cons op ops ih =>
    intro e h
    refine ih (e := t.drive e op) ?_
    rw [(drive_const e op).2.2]
    rcases h with h | ⟨h, hfloor⟩
    · left
      cases op with
      | pop seq =>
        unfold drive
        simp only
        split
        · exact h
        · exact mem_append_left _ h
      | look read finished =>
        unfold drive skipGaps
        simp only
        split
        · split <;> exact h
        · exact h
    · rcases mem_cons.mp h with rfl | h
      · left
        unfold drive
        simp [hfloor]
      · exact .inr ⟨h, hfloor⟩

/-- Above the floor of a resumed sink is where its drive looks from. -/
theorem SinkEnd.resumed_floor
    (h : (SinkEnd.resumed sink q committed).gapsFrom ≤ n) (hn : n + 1 < 2 ^ 64) :
    (SinkEnd.resumed sink q committed).floor.any (fun f => decide (n ≤ f)) = false := by
  cases committed with
  | none => rfl
  | some c =>
    simp only [SinkEnd.resumed, Option.elim_some] at h
    simp only [SinkEnd.resumed, Option.any_some, decide_eq_false_iff_not]
    omega

include hw hl ha

/-- When the drive has ended every number up to the last has been looked at, if the sink can have
gaps at all. -/
theorem Ended.past (hq : t.sinkInput sink = some q)
    (hf : t.Follows o dropped q ops) (he : t.Ended o dropped q ops) (hg : t.gappy sink)
    (hlast : IsHighest (t.On o q) (some last)) :
    last < (t.driveAll (SinkEnd.resumed sink q committed) ops).gapsFrom := by
  obtain ⟨before, read, finished, rfl, hall⟩ := he.looked
  have hk := hf.looks read finished (mem_append_right _ mem_cons_self)
  obtain ⟨hindex, hqueue⟩ := driveAll_const (t := t) (.resumed sink q committed) before
  unfold driveAll at hindex hqueue ⊢
  rw [foldl_append, foldl_cons]
  set e := before.foldl t.drive (.resumed sink q committed)
  have hq' : t.sinkInput e.index = some e.queue := by rw [hindex, hqueue]; exact hq
  have hg' : t.gappy e.index := by rw [hindex]; exact hg
  unfold drive
  simp only
  rw [if_pos hg']
  exact skipGaps_past hw hl ha hk (by rw [hqueue]; exact hall) hq' (by rw [hqueue]; exact hlast)

/-! ### The numbers of a complete run, computed -/

omit hw hl ha

/-- The numbers on a queue, for as many stages up as the run has. -/
def numbersWithin (t : Topology) (o : Outcome) : ℕ → ℕ → List ℕ
  | 0, _ => []
  | fuel + 1, q =>
    match t.link q with
    | some ⟨.source i, _⟩ => List.range (o.count i)
    | some ⟨.kernel s, _⟩ =>
      ((t.taken s).zipIdx.flatMap fun entry =>
        (numbersWithin t o fuel entry.1).map (t.outSeq s entry.2)) ++
      (List.range (o.finish s)).map (o.base s + ·)
    | none => []

def numbers (t : Topology) (o : Outcome) (q : ℕ) : List ℕ := t.numbersWithin o (t.stages + 1) q

/-- The numbers that arrive at stage `s`. -/
def arriving (t : Topology) (o : Outcome) (s : ℕ) : List ℕ :=
  (t.inputs s).zipIdx.flatMap fun entry => (t.numbers o entry.1).map (t.outSeq s entry.2)

theorem mem_numbers (hw : t.Wired) (hq : t.link q = some link) (n : ℕ) :
    n ∈ t.numbers o q ↔ t.On o q n := by
  refine hw.induct (P := fun fuel q => ∀ n, n ∈ t.numbersWithin o fuel q ↔ t.On o q n) ?_ ?_ hq n
  · intro fuel q i c hq n
    unfold numbersWithin
    rw [hq, on_source_iff hq, mem_range]
  intro fuel q s c hq _ _ ih n
  have hinput (p q' : ℕ) (hp : (t.taken s)[p]? = some q') := ih p q' (getElem?_inputs_of_taken hp)
  unfold numbersWithin
  rw [hq]
  simp only [on_kernel_iff hq, mem_append, mem_flatMap, mem_map, mem_range,
    Prod.exists, mk_mem_zipIdx_iff_getElem?]
  constructor
  · rintro (⟨q', p, hp, m, hm, rfl⟩ | ⟨k, hk, rfl⟩)
    · exact .inl ⟨p, q', m, hp, (hinput p q' hp m).mp hm, rfl⟩
    · exact .inr ⟨k, hk, rfl⟩
  · rintro (⟨p, q', m, hp, hm, rfl⟩ | ⟨k, hk, rfl⟩)
    · exact .inl ⟨q', p, hp, m, (hinput p q' hp m).mpr hm, rfl⟩
    · exact .inr ⟨k, hk, rfl⟩

theorem mem_arriving (hw : t.Wired) : n ∈ t.arriving o s ↔ t.Arrives o s n := by
  simp only [arriving, mem_flatMap, mem_map, Prod.exists, mk_mem_zipIdx_iff_getElem?]
  constructor
  · rintro ⟨q, p, hp, m, hm, rfl⟩
    obtain ⟨link, hl, -⟩ := hw.lower hp
    exact ⟨p, q, m, hp, (mem_numbers hw hl m).mp hm, rfl⟩
  · rintro ⟨p, q, m, hp, hm, rfl⟩
    obtain ⟨link, hl, -⟩ := hw.lower hp
    exact ⟨q, p, hp, m, (mem_numbers hw hl m).mpr hm, rfl⟩

/-- An outcome is lawful when its bases are one past the highest of what arrives. -/
theorem lawful_of_arriving (hw : t.Wired) (hcount : ∀ i, o.count i < 2 ^ 64)
    (hbase : ∀ s ∈ List.range' 1 t.stages,
      o.base s = (t.arriving o s).foldr (fun n b => max (n + 1) b) 0 ∧
      o.base s + o.finish s < 2 ^ 64) : o.Lawful t := by
  have hmem : ∀ {s}, 1 ≤ s → s ≤ t.stages → s ∈ List.range' 1 t.stages := fun h₁ h₂ =>
    mem_range'_1.mpr ⟨h₁, by omega⟩
  have hfold : ∀ (l : List ℕ) (b : ℕ),
      l.foldr (fun n b => max (n + 1) b) 0 ≤ b ↔ ∀ n ∈ l, n < b := by
    intro l b
    induction l with
    | nil => simp
    | cons n l ih => simp [ih]
  refine ⟨fun s h₁ h₂ => ?_, fun s h₁ h₂ => (hbase s (hmem h₁ h₂)).2, hcount⟩
  rw [(hbase s (hmem h₁ h₂)).1]
  constructor
  · exact fun seq h => (hfold _ _).mp le_rfl seq ((mem_arriving hw).mpr h)
  · exact fun b hb => (hfold _ _).mpr fun n hn => hb n ((mem_arriving hw).mp hn)

/-- What is known is right when each entry is. -/
theorem knows_of_le (hread : ∀ i < read.length, ∀ c ∈ (read[i]?).join, c = o.count i)
    (hfinished : ∀ s < finished.length, ∀ c ∈ (finished[s]?).join, c = o.finish (s + 1)) :
    Knows o read finished := by
  refine ⟨fun i c h => ?_, fun s c h₁ h => ?_⟩
  · refine hread i ?_ c h
    by_contra hge
    rw [getElem?_eq_none (by omega)] at h
    cases h
  · have := hfinished (s - 1) ?_ c h
    · rwa [Nat.sub_add_cancel h₁] at this
    · by_contra hge
      rw [getElem?_eq_none (by omega)] at h
      cases h

/-! ### Every gap, once -/

/-- **Gap decisions are final and exact** in every run in which the ports of each join carry the
same numbers, as they do when the joins take alike branches and no stage before one gives finish
batches.  Whatever is known of such a run so far, what `produced`, `lastAtSink` and `reaches` say
of it holds in the complete run, and with everything behind a queue known there is an answer for
each of its numbers; so a sink's drive skips no number a morsel has, skips none twice, and when
what gives to its queue has ended every number up to the last was written, skipped by the policy
or skipped as a gap. -/
theorem gaps_exact (t : Topology) (ht : t.Accepted) (o : Outcome) (hl : o.Lawful t) :
    (t.Joined → o.Quiet t → t.Alike o) ∧
    (t.Alike o → (∀ read finished, Knows o read finished →
      (∀ q seq b, seq < 2 ^ 64 → t.reaches q seq (t.produced read finished) = some b →
        (b = true ↔ t.On o q seq)) ∧
      (∀ s b, 1 ≤ s → s ≤ t.stages → (t.produced read finished).baseOf s = some b →
        IsLeast {b | ∀ seq, t.Arrives o s seq → seq < b} b) ∧
      (∀ sink q l, t.sinkInput sink = some q →
        t.lastAtSink sink (t.produced read finished) = some l → IsHighest (t.On o q) l) ∧
      (∀ q link seq, t.KnowsAll o q read finished → t.link q = some link → seq < 2 ^ 64 →
        ∃ b, t.reaches q seq (t.produced read finished) = some b)) ∧
    ∀ dropped sink q committed ops, t.sinkInput sink = some q → t.Follows o dropped q ops →
      let e := t.driveAll (SinkEnd.resumed sink q committed) ops
      e.skipped.Nodup ∧ (∀ n ∈ e.skipped, ¬t.On o q n) ∧
      (t.Ended o dropped q ops → ∀ last n, IsHighest (t.On o q) (some last) →
        (SinkEnd.resumed sink q committed).gapsFrom ≤ n → n ≤ last →
        (¬t.On o q n → n ∈ e.skipped) ∧
        (n ∈ e.written ∨ n ∈ e.skipped ∨
          ∃ q₀ m₀, dropped q₀ m₀ ∧ (sink, n) ∈ t.toSinks q₀ m₀))) := by
  have hw := ht.wired
  refine ⟨fun hj hquiet => alike_of_joined ht hj hl hquiet, fun ha => ⟨fun read finished hk =>
    ⟨fun q seq b => ?_, fun s b h₁ h₂ hb => ?_, fun sink q l => ?_, fun q link seq hall => ?_⟩, ?_⟩⟩
  · exact fun hseq h => reaches_sound hw hl ha hk hseq h
  · rw [(produced_spec hw hl ha hk).1 s b h₁ h₂ hb]
    exact hl.base_least s h₁ h₂
  · exact fun hq h => lastAtSink_spec hw hl ha hk hq h
  · exact fun hq hseq => reaches_total hw hall hl hq hseq
  intro dropped sink q committed ops hq hf e
  have hok := (SinkEnd.resumed_ok (t := t) (o := o) sink q committed).driveAll hw hl ha hq hf
  have hqueue : e.queue = q := (driveAll_const (t := t) _ ops).2
  have hmem : ∀ n, n ∈ e.skipped ↔ (SinkEnd.resumed sink q committed).gapsFrom ≤ n ∧
      n < e.gapsFrom ∧ ¬t.On o q n := by
    intro n
    rw [← hqueue]
    exact hok.mem_skipped n
  refine ⟨hok.sorted.imp fun h => h.ne, fun n hn => ((hmem n).mp hn).2.2, ?_⟩
  intro he last n hlast hfirst hle
  -- a number that never comes has been looked at
  have hgap : ¬t.On o q n → n ∈ e.skipped := by
    intro hoff
    cases hg : t.gappy sink with
    | false => exact absurd (on_of_not_gappy ht hl ha hq hg hlast.1 hle) hoff
    | true =>
      have hpast : last < e.gapsFrom := he.past hw hl ha hq hf hg hlast
      exact (hmem n).mpr ⟨hfirst, by omega, hoff⟩
  refine ⟨hgap, ?_⟩
  by_cases hon : t.On o q n
  · obtain ⟨producer, hlink⟩ := (hw.sink_iff sink q).mp hq
    rcases hon.comes_or_dropped hw ha hlink with hc | ⟨q₀, m₀, hd, hlead⟩
    · exact .inl (mem_written (.inr ⟨he.popped n hc, SinkEnd.resumed_floor hfirst (hon.lt hw hl)⟩))
    · exact .inr (.inr ⟨q₀, m₀, hd, mem_toSinks hw hlead hq⟩)
  · exact .inr (.inl (hgap hon))

/-- Two sources merged by one stage before a sink, and a third source with a sink of its own. -/
def merged : Topology :=
  ⟨[⟨.source 0, .kernel 1 0⟩, ⟨.source 1, .kernel 1 1⟩, ⟨.kernel 1, .sink 0⟩,
      ⟨.source 2, .sink 1⟩], 3, 1, 2, [[0, 1]], [[2]], [[0], [1], [3]], [2, 3],
    [[(0, ⟨2, 0⟩), (1, ⟨2, 1⟩)], [(2, ⟨1, 0⟩)]], [false]⟩

/-- The first source reads three morsels and the second one; the stage gives one at its end. -/
def mergedOutcome : Outcome := ⟨fun i => if i = 0 then 3 else 1, fun _ => 1, fun _ => 5⟩

/-- The drive of the first sink: it looks while the first source is still reading, and at its end;
the third source reads on. -/
def mergedLog : List DriveOp :=
  [.pop 0, .pop 1, .pop 4, .look [none, some 1, none] [none], .pop 2, .pop 5,
    .look [some 3, some 1, none] [some 1]]

/-- Number 3 would be the second morsel of the second source: it is skipped, once, when it is
known that there is none, and everything else up to the last number 5 is written. -/
theorem gaps_exact_merged : merged.Accepted ∧ mergedOutcome.Lawful merged ∧
    (merged.driveAll (.resumed 0 2 none) mergedLog).skipped = [3] ∧
    ¬merged.On mergedOutcome 2 3 ∧
    ∀ n ≤ 5, n ∈ (merged.driveAll (.resumed 0 2 none) mergedLog).written ∨
      n ∈ (merged.driveAll (.resumed 0 2 none) mergedLog).skipped ∨
      ∃ q₀ m₀, False ∧ (0, n) ∈ merged.toSinks q₀ m₀ := by
  have ht : merged.Accepted := by
    have hnew : new 3 1 2 merged.links = .ok merged := by decide +kernel
    exact .new hnew
  have hw := ht.wired
  have hnone : ∀ s, merged.isAligned s = false := by
    intro s
    rcases s with _ | _ | s <;> rfl
  have hj : merged.Joined := fun s hs => absurd hs (by simp [hnone])
  have hquiet : mergedOutcome.Quiet merged := fun s j hs => absurd hs (by simp [hnone])
  have hl : mergedOutcome.Lawful merged := lawful_of_arriving hw
    (fun i => by unfold mergedOutcome; simp only; split <;> norm_num) (by decide +kernel)
  have hon : ∀ n, merged.On mergedOutcome 2 n ↔ n ∈ [0, 2, 4, 1, 5] := fun n => by
    have hq : merged.link 2 = some ⟨.kernel 1, .sink 0⟩ := rfl
    rw [← mem_numbers hw hq,
      show merged.numbers mergedOutcome 2 = [0, 2, 4, 1, 5] by decide +kernel]
  have hcomes : ∀ n, merged.On mergedOutcome 2 n →
      merged.Comes mergedOutcome (fun _ _ => False) 2 n := by
    intro n h
    have hq : merged.link 2 = some ⟨.kernel 1, .sink 0⟩ := rfl
    rcases h.comes_or_dropped hw (alike_of_joined ht hj hl hquiet) hq with hc | ⟨_, _, hfalse, -⟩
    · exact hc
    · exact hfalse.elim
  have hfollows : merged.Follows mergedOutcome (fun _ _ => False) 2 mergedLog := by
    refine ⟨fun n hn => hcomes n ((hon n).mpr ?_), fun read finished h => ?_⟩
    · simp only [mergedLog, mem_cons, DriveOp.pop.injEq, reduceCtorEq, not_mem_nil,
        false_or, or_false] at hn ⊢
      omega
    simp only [mergedLog, mem_cons, reduceCtorEq, DriveOp.look.injEq, not_mem_nil,
      false_or, or_false] at h
    rcases h with ⟨rfl, rfl⟩ | ⟨rfl, rfl⟩
    · exact knows_of_le (by decide) (by decide)
    · exact knows_of_le (by decide) (by decide)
  have hbehind : ∀ p, merged.Behind 2 p → p = .kernel 1 ∨ p = .source 0 ∨ p = .source 1 := by
    intro p h
    induction h with
    | here hq => cases hq; exact .inl rfl
    | @up s p q' link _ hp hq ih =>
      rcases ih with h | h | h <;> cases h
      rcases p with _ | _ | p <;> cases hp <;> cases hq
      · exact .inr (.inl rfl)
      · exact .inr (.inr rfl)
  have hended : merged.Ended mergedOutcome (fun _ _ => False) 2 mergedLog := by
    refine ⟨fun n hn => ?_, mergedLog.dropLast, [some 3, some 1, none], [some 1], rfl, ?_⟩
    · have := (hon n).mp hn.on
      simp only [mergedLog, mem_cons, DriveOp.pop.injEq, reduceCtorEq, not_mem_nil,
        false_or, or_false] at this ⊢
      omega
    · refine ⟨fun i h => ?_, fun s h => ?_⟩
      · rcases hbehind _ h with h | h | h <;> cases h <;> rfl
      · rcases hbehind _ h with h | h | h <;> cases h
        rfl
  obtain ⟨halike, hexact⟩ := gaps_exact merged ht mergedOutcome hl
  obtain ⟨-, hoff, hall⟩ :=
    (hexact (halike hj hquiet)).2 (fun _ _ => False) 0 2 none mergedLog rfl hfollows
  have hskip : (merged.driveAll (.resumed 0 2 none) mergedLog).skipped = [3] := by decide +kernel
  refine ⟨ht, hl, hskip, hoff 3 (by rw [hskip]; exact mem_cons_self), fun n hn => ?_⟩
  refine (hall hended 5 n ?_ (Nat.zero_le n) hn).2
  refine ⟨(hon 5).mpr (by decide), fun m hm => ?_⟩
  have := (hon m).mp hm
  simp only [mem_cons, not_mem_nil, or_false] at this
  omega

/-- Two branches of one source, joined by stage 3: stage 1 takes the source twice and so does
stage 2, and stage 1 was made a join after stage 3 was. -/
def crossed : Topology :=
  ⟨[⟨.source 0, .kernel 1 0⟩, ⟨.source 0, .kernel 1 1⟩, ⟨.source 0, .kernel 2 0⟩,
      ⟨.source 0, .kernel 2 1⟩, ⟨.kernel 1, .kernel 3 0⟩, ⟨.kernel 2, .kernel 3 1⟩,
      ⟨.kernel 3, .sink 0⟩], 1, 3, 1,
    [[0, 1], [2, 3], [4, 5]], [[4], [5], [6]], [[0, 1, 2, 3]], [6], [[(0, ⟨1, 0⟩)]],
    [true, false, true]⟩

/-- The source reads two morsels and no stage gives one at its end. -/
def crossedOutcome : Outcome := ⟨fun _ => 2, fun _ => 0, fun s => if s = 1 then 2 else 4⟩

/-- `align` does not look again at the joins it made before: stage 3 was a join of branches that
both carried 0 to 3, and after stage 1 is one too its first port carries 0 and 1 only.  With
everything known the last number at the sink is said to be 3, and it is 1. -/
theorem later_align_overshoots : crossed.Accepted ∧ crossedOutcome.Lawful crossed ∧
    crossedOutcome.Quiet crossed ∧
    crossed.KnowsAll crossedOutcome 6 [some 2] [some 0, some 0, some 0] ∧
    crossed.lastAtSink 0 (crossed.produced [some 2] [some 0, some 0, some 0]) = some (some 3) ∧
    IsHighest (crossed.On crossedOutcome 6) (some 1) := by
  have ht : crossed.Accepted := by
    let plain : Topology := { crossed with
      paths := [[(0, ⟨4, 0⟩), (0, ⟨4, 1⟩), (0, ⟨4, 2⟩), (0, ⟨4, 3⟩)]]
      aligned := [false, false, false] }
    let joined : Topology := { crossed with
      paths := [[(0, ⟨2, 0⟩), (0, ⟨2, 1⟩)]]
      aligned := [false, false, true] }
    have hplain : new 1 3 1 crossed.links = .ok plain := by decide +kernel
    have hjoined : plain.align [3] = .ok joined := by decide +kernel
    have hcrossed : joined.align [1] = .ok crossed := by decide +kernel
    exact .align (.align (.new hplain) hjoined) hcrossed
  have hw := ht.wired
  have hl : crossedOutcome.Lawful crossed := lawful_of_arriving hw
    (fun i => by unfold crossedOutcome; norm_num) (by decide +kernel)
  have hq : crossed.link 6 = some ⟨.kernel 3, .sink 0⟩ := rfl
  have hnumbers : crossed.numbers crossedOutcome 6 = [0, 1] := by decide +kernel
  refine ⟨ht, hl, fun _ _ _ _ => rfl, .of_run hw (by decide) ?_, by decide +kernel, ?_,
    fun m hm => ?_⟩
  · intro s h₁ h₂
    have : s ≤ 3 := h₂
    rcases (by omega : s = 1 ∨ s = 2 ∨ s = 3) with rfl | rfl | rfl <;> rfl
  · rw [← mem_numbers hw hq]
    decide
  · rw [← mem_numbers hw hq, hnumbers] at hm
    simp only [mem_cons, not_mem_nil, or_false] at hm
    omega

end Topology

end Moruna.Graph

/-
Moruna/Sinks/Ledger.lean

The commit watermark every file sink shares.

A file sink commits whole files, each with the sequence numbers whose rows it holds, and is
told the numbers that will never be written.  Under unordered delivery the files interleave
in sequence space, so the number a resumed run may start from is held back to the start of
any committed file that would be cut by it.  The model follows the ledger's calls; the
history of the calls says what they are about, so the watermark is stated against what was
committed and skipped and not against the ledger's own sets.

* `run_resumable` — **the watermark is the greatest resumable number, never goes back, and a
  checkpoint taken at or after it restores at it**.
-/
import Mathlib.Data.Finset.Card
import Mathlib.Order.Bounds.Basic
import Mathlib.Tactic

namespace Moruna.Sinks

open List

/-- What a resume reports. -/
inductive MorunaError
  | resume (msg : String)
  | sink (msg : String)
  | cancelled
  deriving DecidableEq

/-- One committed file: its name, the lowest and highest number whose rows it holds, and its
size.  Sequence numbers are only compared, and counted up to the first one that is not settled,
so they are natural numbers. -/
structure CommittedFile where
  name : String
  seqMin : ℕ
  seqMax : ℕ
  rows : ℕ
  bytes : ℕ
  deriving DecidableEq

def VERSION : ℕ := 1

structure Document where
  version : ℕ
  kind : String
  nextIndex : ℕ
  committed : List CommittedFile
  deriving DecidableEq

/-- Committed files, the next file index, and the watermark.  `done` holds the numbers at or
above `contiguousNext` that are committed or skipped, `openRanges` the ranges of the
committed files that end at or above `watermarkNext`. -/
structure Ledger where
  kind : String
  committed : List CommittedFile
  nextIndex : ℕ
  done : Finset ℕ
  contiguousNext : ℕ
  openRanges : List (ℕ × ℕ)
  watermarkNext : ℕ

namespace Ledger

/-! ### The calls -/

variable (kind : String)

def new : Ledger := ⟨kind, [], 0, ∅, 0, [], 0⟩

variable (l : Ledger)

def takeIndex : ℕ × Ledger := (l.nextIndex, { l with nextIndex := l.nextIndex + 1 })

/-- The first loop of `advance`: numbers leave `done` while they follow on. -/
def runOn (done : Finset ℕ) (next : ℕ) : Finset ℕ × ℕ :=
  if next ∈ done then runOn (done.erase next) (next + 1) else (done, next)
termination_by done.card
decreasing_by exact Finset.card_erase_lt_of_mem ‹_›

/-- The starts of the ranges that straddle `next`. -/
def straddling (ranges : List (ℕ × ℕ)) (next : ℕ) : List ℕ :=
  (ranges.filter fun r => r.1 < next ∧ next ≤ r.2).map Prod.fst

theorem mem_straddling {ranges : List (ℕ × ℕ)} {next m : ℕ} :
    m ∈ straddling ranges next ↔ ∃ r ∈ ranges, r.1 < next ∧ next ≤ r.2 ∧ r.1 = m := by
  simp only [straddling, mem_map, mem_filter, decide_eq_true_eq]
  constructor
  · rintro ⟨r, ⟨hr, h₁, h₂⟩, rfl⟩
    exact ⟨r, hr, h₁, h₂, rfl⟩
  · rintro ⟨r, hr, h₁, h₂, rfl⟩
    exact ⟨r, ⟨hr, h₁, h₂⟩, rfl⟩

/-- The second loop of `advance`: the watermark is held at the start of any range that
straddles it, then at the start of whatever straddles that point, until none does. -/
def holdBack (ranges : List (ℕ × ℕ)) (next : ℕ) : ℕ :=
  match _h : (straddling ranges next).min? with
  | some m => holdBack ranges m
  | none => next
termination_by next
decreasing_by
  obtain ⟨r, _, hlt, _, rfl⟩ := mem_straddling.mp (min?_mem ‹_›)
  exact hlt

/-- Count on from what was just recorded. -/
def advance : Ledger :=
  let (done, contiguousNext) := runOn l.done l.contiguousNext
  let next := holdBack l.openRanges contiguousNext
  let watermark := max next l.watermarkNext
  { l with
    done, contiguousNext
    watermarkNext := watermark
    openRanges := l.openRanges.filter fun r => watermark ≤ r.2 }

/-- Record a file whose bytes a reader can now see, with the numbers it holds.  A file that
holds none cannot straddle anything. -/
def commit (file : CommittedFile) (seqs : List ℕ) : Ledger :=
  advance { l with
    openRanges := if seqs.isEmpty then l.openRanges
      else l.openRanges ++ [(file.seqMin, file.seqMax)]
    committed := l.committed ++ [file]
    done := seqs.foldl (fun done seq => insert seq done) l.done }

/-- The scheduler will never write `seq`. -/
def skip (seq : ℕ) : Ledger :=
  if l.contiguousNext ≤ seq then advance { l with done := insert seq l.done } else l

/-- The watermark, `none` until the first number is committed or skipped. -/
def committedSeq : Option ℕ :=
  match l.watermarkNext with
  | 0 => none
  | w + 1 => some w

def toDocument : Document := ⟨VERSION, l.kind, l.nextIndex, l.committed⟩

/-- A document of another version or of another kind of sink is refused. -/
def parse (doc : Document) : Except MorunaError Document :=
  if doc.version ≠ VERSION then
    .error (.resume s!"sink checkpoint version {doc.version} is not {VERSION}")
  else if doc.kind ≠ kind then
    .error (.resume s!"sink checkpoint kind {doc.kind} is not {kind}")
  else .ok doc

/-- The files of a checkpoint at or below the watermark, and those above it; a file the
watermark cuts is refused. -/
def sortOut (committedSeq : Option ℕ) :
    List CommittedFile → Except MorunaError (List CommittedFile × List CommittedFile)
  | [] => .ok ([], [])
  | file :: rest =>
    if file.seqMax < file.seqMin then
      .error (.resume s!"committed file {file.name} has range {file.seqMin}..{file.seqMax}")
    else
      match committedSeq with
      | some watermark =>
        if file.seqMax ≤ watermark then do
          let (kept, above) ← sortOut (some watermark) rest
          return (file :: kept, above)
        else if watermark < file.seqMin then do
          let (kept, above) ← sortOut (some watermark) rest
          return (kept, file :: above)
        else .error (.resume
          (s!"committed file {file.name} holds sequences {file.seqMin}..{file.seqMax}, " ++
            s!"which straddles the watermark {watermark}"))
      | none => do
        let (kept, above) ← sortOut none rest
        return (kept, file :: above)

/-- Rebuild from a checkpoint and the watermark the scheduler restored, with the files of the
checkpoint that lie above it and must go. -/
def restore (doc : Document) (committedSeq : Option ℕ) :
    Except MorunaError (Ledger × List CommittedFile) := do
  let (kept, above) ← sortOut committedSeq doc.committed
  let watermarkNext := committedSeq.elim 0 (· + 1)
  return (⟨kind, kept, doc.nextIndex, ∅, watermarkNext, [], watermarkNext⟩, above)

/-! ### The loops of `advance` -/

/-- The first loop keeps what is settled and stops at a number that is not. -/
theorem runOn_spec (done : Finset ℕ) (next : ℕ) :
    (∀ n, n ∈ (runOn done next).1 ∨ n < (runOn done next).2 ↔ n ∈ done ∨ n < next) ∧
      (runOn done next).2 ∉ (runOn done next).1 := by
  fun_induction runOn done next with
  | case1 done next hmem ih =>
    obtain ⟨hset, hstop⟩ := ih
    refine ⟨fun n => (hset n).trans ?_, hstop⟩
    rw [Finset.mem_erase]
    rcases eq_or_ne n next with rfl | hne
    · exact ⟨fun _ => .inl hmem, fun _ => .inr (by omega)⟩
    constructor
    · rintro (⟨_, h⟩ | h)
      · exact .inl h
      · exact .inr (by omega)
    · rintro (h | h)
      · exact .inl ⟨hne, h⟩
      · exact .inr (by omega)
  | case2 done next hmem => exact ⟨fun _ => .rfl, hmem⟩

/-- **The second loop finds the greatest number below its start that no range straddles.** -/
theorem holdBack_isGreatest (ranges : List (ℕ × ℕ)) (next : ℕ) :
    IsGreatest {w | w ≤ next ∧ ∀ r ∈ ranges, ¬ (r.1 < w ∧ w ≤ r.2)} (holdBack ranges next) := by
  fun_induction holdBack ranges next with
  | case1 next m hmin ih =>
    obtain ⟨r, hr, hlt, hle, rfl⟩ := mem_straddling.mp (min?_mem hmin)
    obtain ⟨⟨hbelow, hfree⟩, hmax⟩ := ih
    refine ⟨⟨hbelow.trans hlt.le, hfree⟩, fun w hw => hmax ⟨?_, hw.2⟩⟩
    -- a number in (r.1, next] would be straddled by `r` itself
    by_contra hgt
    exact hw.2 r hr ⟨by omega, hw.1.trans hle⟩
  | case2 next hmin =>
    refine ⟨⟨le_rfl, fun r hr hst => ?_⟩, fun w hw => hw.1⟩
    have hnil := min?_eq_none_iff.mp hmin
    have : r.1 ∈ straddling ranges next := mem_straddling.mpr ⟨r, hr, hst.1, hst.2, rfl⟩
    rw [hnil] at this
    exact absurd this not_mem_nil

/-! ### Runs and their history -/

inductive Op
  | commit (file : CommittedFile) (seqs : List ℕ)
  | skip (seq : ℕ)
  | takeIndex

def step : Op → Ledger
  | .commit file seqs => l.commit file seqs
  | .skip seq => l.skip seq
  | .takeIndex => l.takeIndex.2

def run (ops : List Op) : Ledger := ops.foldl step l

end Ledger

open Ledger

namespace History

def commits (ops : List Op) : List (CommittedFile × List ℕ) :=
  ops.flatMap fun
    | .commit file seqs => [(file, seqs)]
    | _ => []

def skips (ops : List Op) : List ℕ :=
  ops.flatMap fun
    | .skip seq => [seq]
    | _ => []

/-- `n` is in a committed file or was skipped. -/
def Settled (ops : List Op) (n : ℕ) : Prop := n ∈ skips ops ∨ ∃ e ∈ commits ops, n ∈ e.2

/-- The part of a history at or below `c`: what a ledger restored at `c` goes on from. -/
def keep (c : ℕ) (ops : List Op) : List Op :=
  ops.filter fun
    | .commit _ seqs => seqs.all (· ≤ c)
    | .skip seq => seq ≤ c
    | .takeIndex => true

/-- The file holds numbers on both sides of `w`. -/
def Straddles (file : CommittedFile) (w : ℕ) : Prop := file.seqMin < w ∧ w ≤ file.seqMax

/-- A run may restart at `w`: every number below it is settled and no file straddles it. -/
def Resumable (ops : List Op) (w : ℕ) : Prop :=
  (∀ n < w, Settled ops n) ∧ ∀ e ∈ commits ops, ¬ Straddles e.1 w

/-- What the sinks promise: a file's range is that of the numbers it holds, and is `0..0` for
a file that holds none; no number is in two files, or both in a file and skipped. -/
structure Legal (ops : List Op) : Prop where
  ranged : ∀ e ∈ commits ops, e.1.seqMin = e.2.min?.getD 0 ∧ e.1.seqMax = e.2.max?.getD 0
  apart : (commits ops).Pairwise fun a b => a.2.Disjoint b.2
  unskipped : ∀ e ∈ commits ops, ∀ n ∈ e.2, n ∉ skips ops

theorem commits_append (ops more : List Op) :
    commits (ops ++ more) = commits ops ++ commits more := flatMap_append

theorem skips_append (ops more : List Op) :
    skips (ops ++ more) = skips ops ++ skips more := flatMap_append

variable {ops : List Op} {c : ℕ}

theorem commits_keep : commits (keep c ops) = (commits ops).filter fun e => e.2.all (· ≤ c) := by
  induction ops with
  | nil => rfl
  | cons op ops ih =>
    unfold commits keep at *
    cases op <;> simp only [filter_cons, flatMap_cons, filter_append] <;> split <;> simp_all

theorem skips_keep : skips (keep c ops) = (skips ops).filter (· ≤ c) := by
  induction ops with
  | nil => rfl
  | cons op ops ih =>
    unfold skips keep at *
    cases op <;> simp only [filter_cons, flatMap_cons, filter_append] <;> split <;> simp_all

theorem Settled.mono {n : ℕ} (more : List Op) (h : Settled ops n) : Settled (ops ++ more) n := by
  rcases h with h | ⟨e, he, hn⟩
  · exact .inl (by rw [skips_append]; exact mem_append_left _ h)
  · exact .inr ⟨e, by rw [commits_append]; exact mem_append_left _ he, hn⟩

variable {more : List Op} {e : CommittedFile × List ℕ}

theorem Legal.of_append (h : Legal (ops ++ more)) : Legal ops := by
  obtain ⟨hr, ha, hu⟩ := h
  rw [commits_append] at hr ha hu
  refine ⟨fun e he => hr e (mem_append_left _ he), (pairwise_append.mp ha).1,
    fun e he n hn hs => hu e (mem_append_left _ he) n hn ?_⟩
  rw [skips_append]
  exact mem_append_left _ hs

theorem Legal.range (h : Legal ops) (he : e ∈ commits ops) :
    (∀ n ∈ e.2, e.1.seqMin ≤ n ∧ n ≤ e.1.seqMax) ∧
      (e.2 = [] → e.1.seqMin = 0 ∧ e.1.seqMax = 0) ∧
      (e.2 ≠ [] → e.1.seqMin ∈ e.2 ∧ e.1.seqMax ∈ e.2) := by
  obtain ⟨hmin, hmax⟩ := h.ranged e he
  obtain ⟨file, seqs⟩ := e
  cases seqs with
  | nil => exact ⟨by simp, fun _ => ⟨hmin, hmax⟩, fun h => absurd rfl h⟩
  | cons s seqs =>
    obtain ⟨lo, hlo⟩ : ∃ lo, (s :: seqs).min? = some lo := ⟨_, min?_cons'⟩
    obtain ⟨hi, hhi⟩ : ∃ hi, (s :: seqs).max? = some hi := ⟨_, max?_cons'⟩
    have hmin' : file.seqMin = lo := by simpa only [hlo, Option.getD_some] using hmin
    have hmax' : file.seqMax = hi := by simpa only [hhi, Option.getD_some] using hmax
    subst hmin' hmax'
    refine ⟨fun n hn => ⟨?_, ?_⟩, by simp, fun _ => ⟨min?_mem hlo, max?_mem hhi⟩⟩
    · exact (min?_eq_some_iff.mp hlo).2 n hn
    · exact (max?_eq_some_iff.mp hhi).2 n hn

theorem Legal.seqMin_le (h : Legal ops) (he : e ∈ commits ops) : e.1.seqMin ≤ e.1.seqMax := by
  obtain ⟨hin, hnil, hends⟩ := h.range he
  rcases eq_or_ne e.2 [] with h0 | h0
  · exact ((hnil h0).1.trans (hnil h0).2.symm).le
  · exact (hin _ (hends h0).2).1

/-- **A number that was resumable stays so**: a file committed later holds only numbers that
were not settled, so all of them are at or above it. -/
theorem Resumable.mono {w : ℕ} (hl : Legal (ops ++ more)) (h : Resumable ops w) :
    Resumable (ops ++ more) w := by
  refine ⟨fun n hn => (h.1 n hn).mono more, fun e he hst => ?_⟩
  have hrange := hl.range he
  have hmem := he
  rw [commits_append, mem_append] at hmem
  rcases hmem with hold | hnew
  · exact h.2 e hold hst
  -- a new file that straddles `w` holds its own first number, which is settled already
  have hne : e.2 ≠ [] := by
    intro h0
    have := hrange.2.1 h0
    unfold Straddles at hst
    omega
  have hfirst := (hrange.2.2 hne).1
  rcases h.1 _ hst.1 with hs | ⟨e', he', hin'⟩
  · exact hl.unskipped e he _ hfirst (by rw [skips_append]; exact mem_append_left _ hs)
  · have hap := hl.apart
    rw [commits_append] at hap
    exact (pairwise_append.mp hap).2.2 e' he' e hnew hin' hfirst

end History

open History

namespace Ledger

/-! ### The ledger follows its history -/

/-- What the ledger holds of the history of its calls. -/
structure Follows (l : Ledger) (kind : String) (ops : List Op) : Prop where
  kind_eq : l.kind = kind
  committed_eq : l.committed = (commits ops).map Prod.fst
  settled_iff : ∀ n, n ∈ l.done ∨ n < l.contiguousNext ↔ Settled ops n
  stops : l.contiguousNext ∉ l.done
  watermark : IsGreatest {w | Resumable ops w} l.watermarkNext
  -- at and above the watermark the ranges kept say which files straddle
  ranges : ∀ w, l.watermarkNext ≤ w →
    ((∃ r ∈ l.openRanges, r.1 < w ∧ w ≤ r.2) ↔ ∃ e ∈ commits ops, Straddles e.1 w)

variable {l : Ledger} {kind : String} {ops : List Op}

/-- **`advance` restores the watermark**: from a ledger that has recorded a call and whose old
watermark is still resumable. -/
theorem advance_follows (hkind : l.kind = kind)
    (hcommitted : l.committed = (commits ops).map Prod.fst)
    (hsettled : ∀ n, n ∈ l.done ∨ n < l.contiguousNext ↔ Settled ops n)
    (hold : Resumable ops l.watermarkNext)
    (hranges : ∀ w, l.watermarkNext ≤ w →
      ((∃ r ∈ l.openRanges, r.1 < w ∧ w ≤ r.2) ↔ ∃ e ∈ commits ops, Straddles e.1 w)) :
    l.advance.Follows kind ops := by
  obtain ⟨hrun, hstop⟩ := runOn_spec l.done l.contiguousNext
  set next := (runOn l.done l.contiguousNext).2 with hnext
  set w' := holdBack l.openRanges next with hw'
  have hsettled' := fun n => (hrun n).trans (hsettled n)
  obtain ⟨⟨hle, hfree⟩, hmost⟩ := holdBack_isGreatest l.openRanges next
  have hcover : ∀ w, (∀ n < w, Settled ops n) ↔ w ≤ next := by
    intro w
    constructor
    · intro h
      by_contra hlt
      rcases (hsettled' next).mpr (h next (by omega)) with hin | hin
      · exact hstop hin
      · exact absurd hin (lt_irrefl _)
    · intro h n hn
      exact (hsettled' n).mp (.inr (by omega))
  -- the old watermark is one of the numbers the second loop chooses from
  have hge : l.watermarkNext ≤ w' := by
    refine hmost ⟨(hcover _).mp hold.1, fun r hr hst => ?_⟩
    obtain ⟨e, he, hst'⟩ := (hranges _ le_rfl).mp ⟨r, hr, hst⟩
    exact hold.2 e he hst'
  have hmax : max w' l.watermarkNext = w' := max_eq_left hge
  have hnew : l.advance.watermarkNext = w' := hmax
  refine ⟨hkind, hcommitted, hsettled', hstop, ⟨⟨?_, fun e he hst => ?_⟩, fun w hw => ?_⟩, ?_⟩
  · rw [hnew]
    exact (hcover _).mpr hle
  · rw [hnew] at hst
    obtain ⟨r, hr, hst'⟩ := (hranges w' hge).mpr ⟨e, he, hst⟩
    exact hfree r hr hst'
  · rw [hnew]
    rcases le_total w l.watermarkNext with hlow | hhigh
    · exact hlow.trans hge
    · refine hmost ⟨(hcover w).mp hw.1, fun r hr hst => ?_⟩
      obtain ⟨e, he, hst'⟩ := (hranges w hhigh).mp ⟨r, hr, hst⟩
      exact hw.2 e he hst'
  · intro w hw
    rw [hnew] at hw
    rw [← hranges w (hge.trans hw)]
    have hopen : l.advance.openRanges = l.openRanges.filter fun r => w' ≤ r.2 := by
      show l.openRanges.filter (fun r => max w' l.watermarkNext ≤ r.2) = _
      rw [hmax]
    rw [hopen]
    constructor
    · rintro ⟨r, hr, hst⟩
      exact ⟨r, (mem_filter.mp hr).1, hst⟩
    · rintro ⟨r, hr, hst⟩
      exact ⟨r, mem_filter.mpr ⟨hr, decide_eq_true (hw.trans hst.2)⟩, hst⟩

theorem mem_foldl_insert (seqs : List ℕ) (done : Finset ℕ) (n : ℕ) :
    n ∈ seqs.foldl (fun done seq => insert seq done) done ↔ n ∈ done ∨ n ∈ seqs := by
  induction seqs generalizing done with
  | nil => simp
  | cons s seqs ih =>
    rw [foldl_cons, ih, Finset.mem_insert, mem_cons]
    tauto

/-- A history with the same files and the same settled numbers. -/
theorem Follows.congr {ops ops' : List Op} (h : l.Follows kind ops)
    (hcommits : commits ops' = commits ops) (hsettled : ∀ n, Settled ops' n ↔ Settled ops n) :
    l.Follows kind ops' := by
  have hres : ∀ w, Resumable ops' w ↔ Resumable ops w := by
    intro w
    unfold Resumable
    simp only [hcommits, hsettled]
  refine ⟨h.kind_eq, by rw [hcommits]; exact h.committed_eq,
    fun n => (h.settled_iff n).trans (hsettled n).symm, h.stops, ?_, fun w hw => ?_⟩
  · simp only [hres]
    exact h.watermark
  · rw [hcommits]
    exact h.ranges w hw

theorem Follows.commit (h : l.Follows kind ops) {file : CommittedFile}
    {seqs : List ℕ} (hl : Legal (ops ++ [.commit file seqs])) :
    (l.commit file seqs).Follows kind (ops ++ [.commit file seqs]) := by
  have hcommits : commits (ops ++ [.commit file seqs]) = commits ops ++ [(file, seqs)] :=
    commits_append ops _
  have hskips : skips (ops ++ [.commit file seqs]) = skips ops := by
    rw [skips_append]; exact append_nil _
  have hfile : (file, seqs) ∈ commits (ops ++ [.commit file seqs]) := by
    rw [hcommits]; exact mem_append_right _ mem_cons_self
  refine advance_follows h.kind_eq ?_ (fun n => ?_) (h.watermark.1.mono hl) (fun w hw => ?_)
  · rw [hcommits, map_append, ← h.committed_eq]
    rfl
  · rw [mem_foldl_insert, or_right_comm, h.settled_iff]
    unfold Settled
    rw [hskips, hcommits]
    simp only [mem_append, mem_singleton, or_and_right, exists_or, exists_eq_left]
    exact or_assoc
  -- the new range stands for the new file, and a file that holds nothing straddles nothing
  · rw [hcommits]
    have hnew : (∃ e ∈ commits ops ++ [(file, seqs)], Straddles e.1 w) ↔
        (∃ e ∈ commits ops, Straddles e.1 w) ∨ Straddles file w := by
      simp only [mem_append, mem_singleton, or_and_right, exists_or, exists_eq_left]
    rw [hnew, ← h.ranges w hw]
    rcases eq_or_ne seqs [] with rfl | hne
    · have h0 := ((hl.range hfile).2.1 rfl)
      have : ¬ Straddles file w := fun hst => by
        unfold Straddles at hst
        simp only at h0
        omega
      simp only [isEmpty_nil, if_true, this, or_false]
    · have hemp : seqs.isEmpty = false := by simpa using hne
      simp only [hemp, Bool.false_eq_true, if_false, mem_append, mem_singleton,
        or_and_right, exists_or, exists_eq_left, Straddles]

theorem Follows.skip (h : l.Follows kind ops) {seq : ℕ}
    (hl : Legal (ops ++ [.skip seq])) : (l.skip seq).Follows kind (ops ++ [.skip seq]) := by
  have hcommits : commits (ops ++ [.skip seq]) = commits ops := by
    rw [commits_append]; exact append_nil _
  have hsettled : ∀ n, Settled (ops ++ [.skip seq]) n ↔ n = seq ∨ Settled ops n := by
    intro n
    have hskips : skips (ops ++ [.skip seq]) = skips ops ++ [seq] := skips_append ops _
    unfold Settled
    rw [hcommits, hskips, mem_append, mem_singleton]
    tauto
  unfold Ledger.skip
  split
  · refine advance_follows h.kind_eq ?_ (fun n => ?_) (h.watermark.1.mono hl) (fun w hw => ?_)
    · rw [hcommits]; exact h.committed_eq
    · rw [hsettled, Finset.mem_insert, or_assoc, h.settled_iff]
    · rw [hcommits]; exact h.ranges w hw
  -- a number below the first unsettled one is settled already
  · refine h.congr hcommits fun n => (hsettled n).trans ⟨?_, .inr⟩
    rintro (rfl | hn)
    · exact (h.settled_iff n).mp (.inr (by omega))
    · exact hn

/-- **Each call keeps the ledger and the history together.** -/
theorem Follows.step (h : l.Follows kind ops) {op : Op} (hl : Legal (ops ++ [op])) :
    (l.step op).Follows kind (ops ++ [op]) := by
  cases op with
  | commit file seqs => exact h.commit hl
  | skip seq => exact h.skip hl
  | takeIndex =>
    have h' : (l.step .takeIndex).Follows kind ops := { h with }
    have hcommits : commits (ops ++ [.takeIndex]) = commits ops := by
      rw [commits_append]; exact append_nil _
    have hskips : skips (ops ++ [.takeIndex]) = skips ops := by
      rw [skips_append]; exact append_nil _
    refine h'.congr hcommits fun n => ?_
    unfold Settled
    rw [hcommits, hskips]

theorem follows_new (kind : String) (index : ℕ) :
    Follows { new kind with nextIndex := index } kind [] := by
  refine ⟨rfl, rfl, fun n => ?_, Finset.notMem_empty _, ⟨⟨?_, ?_⟩, fun w hw => ?_⟩, fun w _ => ?_⟩
  · simp [new, Settled, skips, commits]
  · exact fun n hn => absurd hn (Nat.not_lt_zero n)
  · simp [commits]
  · by_contra hpos
    rcases hw.1 0 (pos_of_ne_zero fun h0 => hpos (h0 ▸ le_rfl)) with h | ⟨_, h, _⟩
    · exact absurd h not_mem_nil
    · exact absurd h not_mem_nil
  · simp [new, commits]

theorem Follows.run {more : List Op} (h : l.Follows kind ops) (hl : Legal (ops ++ more)) :
    (l.run more).Follows kind (ops ++ more) := by
  induction more generalizing l ops with
  | nil =>
    rw [append_nil]
    exact h
  | cons op more ih =>
    rw [append_cons] at hl ⊢
    exact ih (h.step hl.of_append) hl

/-! ### Restoring -/

variable {c : ℕ}

/-- Files whose ranges do not run backwards and that the watermark does not cut are sorted by
where they end. -/
theorem sortOut_eq {files : List CommittedFile}
    (h : ∀ f ∈ files, f.seqMin ≤ f.seqMax ∧ ¬ Straddles f (c + 1)) :
    sortOut (some c) files = .ok (files.filter fun f => f.seqMax ≤ c,
      files.filter fun f => ¬ f.seqMax ≤ c) := by
  induction files with
  | nil => rfl
  | cons f files ih =>
    obtain ⟨hle, hst⟩ := h f mem_cons_self
    have ih := ih fun g hg => h g (mem_cons_of_mem _ hg)
    unfold Straddles at hst
    rw [sortOut, if_neg (by omega)]
    by_cases hlow : f.seqMax ≤ c
    · simp only [hlow, if_true, ih, not_true, decide_true, decide_false, filter_cons]
      rfl
    · have hhigh : c < f.seqMin := by omega
      simp only [hlow, if_false, hhigh, if_true, ih, not_false_iff, decide_true, decide_false,
        filter_cons]
      rfl

/-- A file ends at or below `c` exactly when all its numbers do. -/
theorem seqMax_le_iff (h : Legal ops) {e : CommittedFile × List ℕ}
    (he : e ∈ commits ops) (c : ℕ) : e.1.seqMax ≤ c ↔ e.2.all (· ≤ c) := by
  obtain ⟨hin, hnil, hends⟩ := h.range he
  simp only [all_eq_true, decide_eq_true_eq]
  constructor
  · intro hle n hn
    exact (hin n hn).2.trans hle
  intro hall
  rcases eq_or_ne e.2 [] with h0 | h0
  · rw [(hnil h0).2]
    exact Nat.zero_le c
  · exact hall _ (hends h0).2

theorem committedSeq_eq_some : l.committedSeq = some c ↔ l.watermarkNext = c + 1 := by
  unfold committedSeq
  split <;> simp_all

/-- The kept files and the skipped numbers cover what is below a resumable number. -/
theorem covered (h : Legal ops) (hc : Resumable ops (c + 1)) {n : ℕ} (hn : n ≤ c) :
    n ∈ skips ops ∨ ∃ e ∈ (commits ops).filter (fun e => e.2.all (· ≤ c)), n ∈ e.2 := by
  rcases hc.1 n (by omega) with hs | ⟨e, he, hin⟩
  · exact .inl hs
  · have hfirst := ((h.range he).1 n hin).1
    have hst := hc.2 e he
    unfold Straddles at hst
    exact .inr ⟨e, mem_filter.mpr ⟨he, (seqMax_le_iff h he c).mp (by omega)⟩, hin⟩

/-- The ledger that a checkpoint restores at `c`. -/
def restoredAt (kind : String) (index c : ℕ) (ops : List Op) : Ledger :=
  ⟨kind, (commits (keep c ops)).map Prod.fst, index, ∅, c + 1, [], c + 1⟩

/-- **A ledger restores at every number that is resumable.** -/
theorem Follows.restore (hf : l.Follows kind ops) (h : Legal ops) (hc : Resumable ops (c + 1)) :
    (do let doc ← parse kind l.toDocument
        Ledger.restore kind doc (some c)) = .ok (restoredAt kind l.nextIndex c ops,
      ((commits ops).filter fun e => !e.2.all (· ≤ c)).map Prod.fst) := by
  have hparse : parse kind l.toDocument = .ok l.toDocument := by
    rw [parse, if_neg (by simp [toDocument]), if_neg (by simp [toDocument, hf.kind_eq])]
  have hsorted := @sortOut_eq c l.committed <| by
    rw [hf.committed_eq]
    intro f hfile
    obtain ⟨e, he, rfl⟩ := mem_map.mp hfile
    exact ⟨h.seqMin_le he, hc.2 e he⟩
  -- the code sorts files out by their highest number only
  have hfilter : ∀ e ∈ commits ops, decide (e.1.seqMax ≤ c) = e.2.all (· ≤ c) := fun e he =>
    Bool.eq_iff_iff.mpr (decide_eq_true_iff.trans (seqMax_le_iff h he c))
  have hlow : l.committed.filter (fun f => f.seqMax ≤ c) =
      (commits (keep c ops)).map Prod.fst := by
    rw [hf.committed_eq, filter_map, commits_keep]
    exact congrArg _ (filter_congr hfilter)
  have hhigh : l.committed.filter (fun f => ¬ f.seqMax ≤ c) =
      ((commits ops).filter fun e => !e.2.all (· ≤ c)).map Prod.fst := by
    rw [hf.committed_eq, filter_map]
    refine congrArg _ (filter_congr fun e he => ?_)
    rw [← hfilter e he]
    exact decide_not
  rw [hlow, hhigh] at hsorted
  show (parse kind _ >>= fun doc => Ledger.restore kind doc (some c)) = _
  rw [hparse]
  show (sortOut (some c) l.committed >>= _) = _
  rw [hsorted]
  rfl

theorem follows_restored (h : Legal ops) (hc : Resumable ops (c + 1)) (kind : String) (index : ℕ) :
    (restoredAt kind index c ops).Follows kind (keep c ops) := by
  have hends : ∀ e ∈ commits (keep c ops), e.1.seqMax ≤ c := by
    intro e he
    rw [commits_keep, mem_filter] at he
    exact (seqMax_le_iff h he.1 c).mpr he.2
  have hsettled : ∀ n, Settled (keep c ops) n ↔ n ≤ c := by
    intro n
    unfold Settled
    rw [skips_keep, commits_keep, mem_filter, decide_eq_true_eq]
    refine ⟨?_, fun hn => (covered h hc hn).imp_left fun hs => ⟨hs, hn⟩⟩
    rintro (hs | ⟨e, he, hn⟩)
    · exact hs.2
    · exact of_decide_eq_true (all_eq_true.mp (mem_filter.mp he).2 n hn)
  -- settled is exactly what is at or below `c`, and no kept file reaches past it
  refine ⟨rfl, rfl, fun n => ?_, Finset.notMem_empty _, ⟨⟨fun n hn => ?_, fun e he hst => ?_⟩,
    fun w hw => ?_⟩, fun w hw => ?_⟩
  · rw [hsettled]
    simp [restoredAt]
  · exact (hsettled n).mpr (Nat.lt_succ_iff.mp hn)
  · exact absurd (hends e he) (not_le.mpr hst.2)
  · by_contra hlt
    have := (hsettled (c + 1)).mp (hw.1 _ (not_le.mp hlt))
    omega
  · refine iff_of_false (by simp [restoredAt]) ?_
    rintro ⟨e, he, hst⟩
    have := hends e he
    have : c + 1 ≤ e.1.seqMax := hw.trans hst.2
    omega

/-- A ledger at the start of a run, with the history behind it: a new one, one that a checkpoint
without a watermark restored, or one restored at a watermark some earlier run reported. -/
inductive Started (kind : String) : Ledger → List Op → Prop
  | fresh (index : ℕ) : Started kind { new kind with nextIndex := index } []
  | restored {l l' : Ledger} {past ops more : List Op} {c : ℕ} {above : List CommittedFile} :
      Started kind l past → Legal (past ++ (ops ++ more)) → (l.run ops).committedSeq = some c →
      (do let doc ← parse kind (l.run (ops ++ more)).toDocument
          restore kind doc (some c)) = .ok (l', above) →
      Started kind l' (keep c (past ++ (ops ++ more)))

variable {past more : List Op}

theorem Follows.resumable (h : l.Follows kind past) (hl : Legal (past ++ (ops ++ more)))
    (hc : (l.run ops).committedSeq = some c) : Resumable (past ++ (ops ++ more)) (c + 1) := by
  rw [← append_assoc] at hl ⊢
  rw [← committedSeq_eq_some.mp hc]
  exact (h.run hl.of_append).watermark.1.mono hl

theorem Started.follows (h : Started kind l past) : l.Follows kind past := by
  induction h with
  | fresh index => exact follows_new kind index
  | restored _ hl hc hr ih =>
    have hc' := ih.resumable hl hc
    rw [(ih.run hl).restore hl hc'] at hr
    cases hr
    exact follows_restored hl hc' _ _

/-- **The watermark is exact and always resumable.**  After every run of calls, on a new ledger
or on a restored one, it is the greatest number with everything below it settled and no committed
file across it; it never goes back; and a checkpoint taken then or later restores at it, keeping
the files whose numbers are all at or below it and naming the others for deletion, so that the
kept files and the skipped numbers cover it. -/
theorem run_resumable {kind : String} {l : Ledger} {past : List Op} (hstart : Started kind l past)
    (ops more : List Op) (h : Legal (past ++ (ops ++ more))) :
    IsGreatest {w | Resumable (past ++ ops) w} (l.run ops).watermarkNext ∧
    (l.run ops).watermarkNext ≤ (l.run (ops ++ more)).watermarkNext ∧
    ∀ c, (l.run ops).committedSeq = some c →
      ∃ restored above,
        (do let doc ← parse kind (l.run (ops ++ more)).toDocument
            restore kind doc (some c)) = .ok (restored, above) ∧
        restored.committed =
          ((commits (past ++ (ops ++ more))).filter fun e => e.2.all (· ≤ c)).map Prod.fst ∧
        above = ((commits (past ++ (ops ++ more))).filter fun e => !e.2.all (· ≤ c)).map Prod.fst ∧
        restored.committedSeq = some c ∧
        ∀ n ≤ c, n ∈ skips (past ++ (ops ++ more)) ∨
          ∃ e ∈ (commits (past ++ (ops ++ more))).filter (fun e => e.2.all (· ≤ c)), n ∈ e.2 := by
  have hl := h
  rw [← append_assoc] at hl
  have hf := hstart.follows.run hl.of_append
  have hf' := hstart.follows.run h
  refine ⟨hf.watermark, hf'.watermark.2 ?_, fun c hc => ?_⟩
  · rw [← append_assoc]
    exact hf.watermark.1.mono hl
  have hc' := hstart.follows.resumable h hc
  exact ⟨_, _, hf'.restore h hc', by rw [← commits_keep]; rfl, rfl, rfl, fun n => covered h hc'⟩

/-- A file on both sides of a skipped number, and one above them. -/
def interleaved : List Op := [.commit ⟨"a", 0, 2, 1, 1⟩ [0, 2], .skip 1]

def afterwards : List Op := [.commit ⟨"b", 3, 5, 1, 1⟩ [5, 3]]

/-- A checkpoint taken after both restores at the earlier watermark, which keeps the first file
and gives up the second; the restored ledger goes on from there. -/
theorem run_resumable_interleaved : ((new "parquet").run interleaved).committedSeq = some 2 ∧
    ∃ restored above,
    (do let doc ← parse "parquet" ((new "parquet").run (interleaved ++ afterwards)).toDocument
        restore "parquet" doc (some 2)) = .ok (restored, above) ∧
    restored.committed = [⟨"a", 0, 2, 1, 1⟩] ∧ above = [⟨"b", 3, 5, 1, 1⟩] ∧
    IsGreatest {w | Resumable (interleaved ++ [.commit ⟨"c", 3, 4, 1, 1⟩ [4, 3]]) w}
      (restored.run [.commit ⟨"c", 3, 4, 1, 1⟩ [4, 3]]).watermarkNext := by
  have hlegal : Legal (interleaved ++ afterwards) :=
    ⟨by decide, by simp [commits, interleaved, afterwards], by decide⟩
  have hc : ((new "parquet").run interleaved).committedSeq = some 2 := by decide +kernel
  obtain ⟨restored, above, hr, hk, ha, -⟩ :=
    (run_resumable (.fresh 0) interleaved afterwards hlegal).2.2 2 hc
  refine ⟨hc, restored, above, hr, hk, ha, ?_⟩
  exact (run_resumable (.restored (.fresh 0) hlegal hc hr) [.commit ⟨"c", 3, 4, 1, 1⟩ [4, 3]] []
    ⟨by decide, by simp [commits, keep, interleaved, afterwards], by decide⟩).1

end Ledger

end Moruna.Sinks

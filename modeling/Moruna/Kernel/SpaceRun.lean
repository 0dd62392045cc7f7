/-
Moruna/Kernel/SpaceRun.lean

Address spaces over whole runs.

Every call keeps what holds of a space, whatever the account and the page table answer and
wherever it fails, with one condition: where the kernel chooses an address, no area may
straddle the start of the mapping area, for `findFree` would not see it.  The two runs at
the end show that the condition is needed: two areas that overlap, and an account charged
for less than the space costs.

* `step_inv`, `run_inv` — what holds of a space, along every run;
* `run_laid_out`, `run_charged` — the areas, and their charge;
* `straddling_overlap`, `straddling_undercharged` — the runs outside of the condition.
-/
import Moruna.Kernel.SpaceInv

namespace Moruna.Kernel

namespace Space

/-! ### The pieces of the calls -/

/-- What holds of a space between calls, and that it kept the data plane's areas of `i₀`. -/
def Keeps (i₀ : Inner) (s : Space) : Prop := s.inner.Inv 0 ∧ i₀.PlaneKept s.inner

variable {s : Space}
variable {i : Inner} {len : ℕ} {op : Op}

theorem keeps_of {i₀ : Inner} (h : s.inner = i) (hi : i.Inv 0 ∧ i₀.PlaneKept i) : Keeps i₀ s := by
  subst h
  exact hi

section

variable {i : Inner} {P : Space → Prop}
variable {E : Error → Space → Prop}

theorem update_spec {f : Inner → Inner} :
    Triple (fun s => s.inner = i) (update f) (fun _ s => s.inner = f i) E :=
  .update fun _ h => congrArg f h

theorem draw_spec :
    Triple (fun s => s.inner = i) draw (fun _ s => s.inner = i) E := fun _ h => h

theorem require_spec {α : Type} (x : Except Error α) :
    Triple P (require x) (fun a s => x = .ok a ∧ P s) (fun _ s => P s) := by
  rcases x with e | a
  · exact .throw fun _ h => h
  · exact .pure fun _ h => ⟨rfl, h⟩

theorem attempt_spec :
    Triple (fun s => s.inner = i) attempt (fun _ s => s.inner = i) (fun _ s => s.inner = i) := by
  refine .bind draw_spec fun a => ?_
  rcases a.failed with - | e
  · exact .skip
  · exact .throw fun _ h => h

theorem charge_spec (bytes : ℕ) : Triple (fun s => s.inner = i) (charge bytes)
      (fun _ s => s.inner = { i with charged := i.charged + bytes }) (fun _ s => s.inner = i) := by
  refine .bind draw_spec fun a => ?_
  rcases a.refused with - | e
  · exact update_spec
  · exact .throw fun _ h => h

end

theorem Inv.charge (h : i.Inv 0) (bytes : ℕ) :
    ({ i with charged := i.charged + bytes } : Inner).Inv bytes :=
  ⟨h.sound.of_eq rfl rfl, h.billed.tables, by
    show i.charged + bytes = i.cost + bytes
    rw [h.billed.charged, add_zero], h.billed.faults⟩

theorem checkRange_eq_ok {va stop : ℕ} (h : checkRange va len = .ok stop) :
    stop = va + len ∧ va < stop ∧ va % PAGE_SIZE = 0 ∧ stop % PAGE_SIZE = 0 ∧
      IMAGE_START ≤ va ∧ stop ≤ MAP_END := by
  unfold checkRange at h
  split at h
  · cases h
  split at h
  · cases h
  split at h
  · cases h
  case isFalse hargs _ hrange =>
    cases h
    push Not at hargs hrange
    refine ⟨rfl, by omega, hargs.2.1, ?_, hrange.1, hrange.2⟩
    rw [Nat.add_mod, hargs.2.1, hargs.2.2]
    rfl

theorem pages_eq_ok {n : ℕ} (h : pages len = .ok n) : n % PAGE_SIZE = 0 := by
  unfold pages at h
  split at h
  · cases h
    exact Nat.mul_mod_left _ _
  · cases h

/-! ### Unmapping and mapping -/

variable {i₀ : Inner}

theorem keeps_attempt : Stable (Keeps i₀) attempt :=
  .pointwise fun s hs => (attempt_spec (i := s.inner)).conseq (fun _ h => congrArg inner h)
    (fun _ _ h => keeps_of h hs) fun _ _ h => keeps_of h hs

theorem keeps_charge (hs : Keeps i₀ s) (bytes : ℕ) : Triple (fun s' => s' = s) (charge bytes)
      (fun _ s' => s'.inner = { s.inner with charged := s.inner.charged + bytes })
      (fun _ => Keeps i₀) :=
  (charge_spec bytes).conseq (fun _ h => congrArg inner h) (fun _ _ h => h)
    fun _ _ h => keeps_of h hs

theorem unmap_spec (va len : ℕ) (only : Option AreaKind) :
    Stable (Keeps i₀) (unmap va len only) := by
  refine .seq (require_spec _) fun stop hrange => .read fun s hs => ?_
  obtain ⟨-, hlt, hva, hstop, -, -⟩ := checkRange_eq_ok hrange
  refine .ite (fun _ => .throw fun _ h => h ▸ hs) fun _ => ?_
  refine .ite (fun _ => .throw fun _ h => h ▸ hs) fun hplane => ?_
  refine (keeps_charge hs _).bind fun _ => update_spec.post fun _ s' h => ?_
  obtain ⟨hinv, hkept⟩ := Inner.Inv.unmap
    (i := { s.inner with charged := s.inner.charged + s.inner.splitBytes va stop })
    (Inv.charge hs.1 _) hva hstop hlt (Bool.eq_false_iff.mpr hplane)
  exact keeps_of h ⟨hinv, hs.2.trans hkept⟩

/-- A place for `len` bytes. -/
structure Placed (len va : ℕ) (i : Inner) : Prop where
  free : i.Free va (va + len)
  aligned : va % PAGE_SIZE = 0
  low : IMAGE_START ≤ va
  high : va + len ≤ MAP_END

theorem makeRoom_spec (va len : ℕ) (fixed : Bool) :
    Triple (Keeps i₀) (makeRoom va len fixed) (fun va s => Keeps i₀ s ∧ Placed len va s.inner)
      (fun _ => Keeps i₀) := by
  refine .seq (require_spec _) fun stop hrange => ?_
  obtain ⟨rfl, -, hva, -, hlow, hhigh⟩ := checkRange_eq_ok hrange
  have hplaced : ∀ s : Space, s.inner.Inv 0 → ¬ s.inner.overlaps va (va + len) = true →
      Placed len va s.inner := fun s hs hno =>
    ⟨Inner.overlaps_eq_false hs.sound.layout (Bool.eq_false_iff.mpr hno), hva, hlow, hhigh⟩
  refine .read fun s hs => .ite (fun _ => ?_) fun hno => ?_
  · refine .ite (fun _ => ?_) fun _ => .throw fun _ h => h ▸ hs
    -- what was there is unmapped, and the range is looked at again
    refine .bind ((unmap_spec va len none).of_eq hs) fun _ => .read fun s' hs' => ?_
    refine .ite (fun _ => .throw fun _ h => h ▸ hs') fun hno => .pure ?_
    rintro _ rfl
    exact ⟨hs', hplaced _ hs'.1 hno⟩
  · refine .pure ?_
    rintro _ rfl
    exact ⟨hs, hplaced _ hs.1 hno⟩

theorem place_spec (at_ : Option ℕ) (len : ℕ) (fixed : Bool) :
    Triple (fun s => Keeps i₀ s ∧ (at_ = none → s.inner.Clear)) (place at_ len fixed)
      (fun va s => Keeps i₀ s ∧ Placed len va s.inner) (fun _ => Keeps i₀) := by
  rcases at_ with - | va
  · refine .read fun s hs => ?_
    refine (require_spec _).conseq (fun _ h => h) (fun va s' h => ?_) fun _ s' h => h ▸ hs.1
    obtain ⟨hfind, rfl⟩ := h
    obtain ⟨hfree, hmod, hlow, hhigh⟩ := Inner.findFree_spec hs.1.1.sound.layout (hs.2 rfl) hfind
    exact ⟨hs.1, hfree, hmod, hlow, hhigh⟩
  · exact (makeRoom_spec va len fixed).pre fun _ h => h.1

theorem addArea_spec (va : ℕ) (area : Area) :
    Triple (fun s => Keeps i₀ s ∧ s.inner.Fits va area) (addArea va area) (fun _ => Keeps i₀)
      (fun _ => Keeps i₀) := by
  refine .read fun s hs => ?_
  obtain ⟨⟨hinv, hkept⟩, hfit⟩ := hs
  have hnone := hfit.get_eq_none hinv.sound.layout
  simp only
  generalize hadded : tables [(va, area.stop)] (s.inner.neighbours va area.stop).1
    (s.inner.neighbours va area.stop).2 MAP_END = added
  refine (keeps_charge ⟨hinv, hkept⟩ _).bind fun _ => ?_
  refine .bind update_spec fun _ => .bind draw_spec fun a => ?_
  rcases a.failed with - | e
  · refine update_spec.post fun _ s' h => ?_
    refine keeps_of h ⟨hinv.add hfit hadded.symm, fun k x hk hplane => ?_⟩
    refine OrdMap.get_insert_eq_some.mpr (.inr ⟨?_, hkept k x hk hplane⟩)
    rintro rfl
    rw [hkept k x hk hplane] at hnone
    cases hnone
  · refine .bind update_spec fun _ => .throw fun s' h => ?_
    refine keeps_of h ⟨hinv.addFailed added, fun k x hk hplane => ?_⟩
    rw [Inner.areas_settle, Inner.areas_freeTables]
    exact hkept k x hk hplane

theorem map_spec (at_ : Option ℕ) (len : ℕ) (kind : AreaKind) (prot : Prot) (backing : Backing)
    (fixed : Bool) :
    Triple (fun s => Keeps i₀ s ∧ (at_ = none → s.inner.Clear))
      (map at_ len kind prot backing fixed) (fun _ => Keeps i₀) (fun _ => Keeps i₀) := by
  refine .seq ((require_spec _).error fun _ _ h => h.1) fun _ hprot => ?_
  refine .seq ((require_spec _).error fun _ _ h => h.1) fun len hlen => ?_
  refine .ite (fun _ => .throw fun _ h => h.1) fun hne => ?_
  refine .bind (place_spec at_ len fixed) fun va => ?_
  refine .bind ((addArea_spec va _).pre fun s hs => ⟨hs.1, ?_⟩) fun _ => .skip
  have hmod := pages_eq_ok hlen
  exact
    { free := hs.2.free
      aligned := ⟨hs.2.aligned, by
        show (va + len) % PAGE_SIZE = 0
        rw [Nat.add_mod, hs.2.aligned, hmod]
        rfl⟩
      lt := Nat.lt_add_of_pos_right (Nat.pos_of_ne_zero hne)
      within := ⟨hs.2.low, hs.2.high⟩
      allowed := Inner.checkProt_eq_ok hprot }

theorem mapPlane_spec (memory first len : ℕ) (write : Bool) :
    Triple (fun s => Keeps i₀ s ∧ s.inner.Clear) (mapPlane memory first len write)
      (fun _ => Keeps i₀) (fun _ => Keeps i₀) :=
  (map_spec none len _ _ _ _).pre fun _ h => ⟨h.1, fun _ => h.2⟩

theorem unmapPlane_spec (va len memory : ℕ) :
    Triple (fun s => s.inner.Inv 0) (unmapPlane va len memory) (fun _ s => s.inner.Inv 0)
      (fun _ s => s.inner.Inv 0) := by
  refine .seq (require_spec _) fun stop _ => .read fun s hs => ?_
  rcases hget : s.inner.areas.get va with - | a
  · exact .throw fun _ h => h ▸ hs
  refine .ite (fun hplane => ?_) fun _ => .throw fun _ h => h ▸ hs
  refine (update_spec (i := s.inner)).conseq (fun _ h => congrArg inner h) (fun _ s' h => ?_)
    fun _ _ h => h
  rw [h]
  unfold isPlane at hplane
  simp only [Bool.and_eq_true, beq_iff_eq] at hplane
  refine hs.erase hget hplane.1.2 fun hb => ?_
  rw [hb] at hplane
  cases hplane.2

/-! ### Protections -/

theorem protect_spec (va len : ℕ) (prot : Prot) (only : Option AreaKind) :
    Stable (Keeps i₀) (protect va len prot only) := by
  refine .seq (require_spec _) fun stop hrange => .read fun s hs => ?_
  obtain ⟨-, hlt, hva, hstop, -, -⟩ := checkRange_eq_ok hrange
  refine .seq ((require_spec _).error fun _ _ h => h ▸ hs) fun cursor hcovered => ?_
  refine .ite (fun _ => .throw fun _ h => h ▸ hs) fun _ => ?_
  obtain ⟨hinv, hkept⟩ := Inner.Inv.protect
    (i := { s.inner with charged := s.inner.charged + s.inner.splitBytes va stop })
    (Inv.charge hs.1 _) hva hstop hlt fun s' a hs' h1 h2 =>
      Inner.covered_eq_ok hcovered (s', a) (OrdMap.mem_between.mpr ⟨hs', Nat.zero_le _, h1⟩) h2
  refine (keeps_charge hs _).bind fun _ => .bind (update_spec.post fun _ s' h => ?_)
    fun _ => keeps_attempt
  exact keeps_of h ⟨hinv, hs.2.trans hkept⟩

theorem discard_spec (va len : ℕ) : Stable (Keeps i₀) (discard va len) := by
  refine .seq (require_spec _) fun stop _ => .read fun s hs => ?_
  refine .seq ((require_spec _).error fun _ _ h => h ▸ hs) fun cursor _ => ?_
  refine .ite (fun _ => .throw fun _ h => h ▸ hs) fun _ => ?_
  refine (update_spec (i := s.inner)).conseq (fun _ h => congrArg inner h) (fun _ s' h => ?_)
    fun _ _ h => h
  refine keeps_of h ⟨hs.1.dropZero va stop, fun k x hk hplane => ?_⟩
  rw [Inner.areas_settle]
  exact hs.2 k x hk hplane

/-! ### First touches -/

/-- An area of the space that holds the page. -/
def Holds (area : Area) (page : ℕ) (i : Inner) : Prop :=
  ∃ s, i.areas.get s = some area ∧ s ≤ page ∧ page < area.stop

theorem areaAt_holds {page s : ℕ} {area : Area} (h : i.areaAt page = some (s, area)) :
    Holds area page i := by
  obtain ⟨hlast, hstop⟩ := Option.filter_eq_some_iff.mp h
  obtain ⟨hget, hlt, -⟩ := OrdMap.lastBelow_eq_some hlast
  exact ⟨s, hget, Nat.lt_succ_iff.mp hlt, by simpa using hstop⟩

/-- What holds between the accesses to a page of `area`. -/
def At (i₀ : Inner) (area : Area) (page : ℕ) (s : Space) : Prop :=
  Keeps i₀ s ∧ Holds area page s.inner

theorem frame_spec (area : Area) (page : ℕ) :
    Triple (At i₀ area page) (frame area page) (fun _ => At i₀ area page) (fun _ => Keeps i₀) := by
  refine .pointwise fun s hs => ?_
  obtain ⟨⟨hinv, hkept⟩, start, hget, hle, hlt⟩ := hs
  have hs : Keeps i₀ s := ⟨hinv, hkept⟩
  have hat : At i₀ area page s := ⟨hs, start, hget, hle, hlt⟩
  unfold frame
  rcases hb : area.backing with ⟨memory, first, writable⟩ | - | ⟨region, offset, writable⟩
  · exact (attempt_spec (i := s.inner)).conseq (fun _ h => congrArg inner h)
      (fun _ _ h => ⟨keeps_of h hs, h ▸ hat.2⟩) fun _ _ h => keeps_of h hs
  · refine .read fun s' hs' => ?_
    subst hs'
    refine .ite (fun _ => .pure fun _ h => h ▸ hat) fun hnone => ?_
    refine (keeps_charge hs _).bind fun _ => .bind draw_spec fun a => ?_
    have hcharged := Inv.charge hinv Charges.ZERO_PAGE
    rcases a.failed with - | e
    · refine update_spec.post fun _ s'' h => ?_
      exact ⟨keeps_of h ⟨hcharged.insertZero (by simpa using hnone) hget hle hlt hb, hkept⟩,
        h ▸ hat.2⟩
    · refine .bind update_spec fun _ => .throw fun s'' h => ?_
      refine keeps_of h ⟨hcharged.settle, fun k x hk hplane => ?_⟩
      rw [Inner.areas_settle]
      exact hkept k x hk hplane
  · exact .throw fun _ h => h ▸ hs

theorem touch_spec (area : Area) (page : ℕ) :
    Triple (At i₀ area page) (touch area page) (fun _ => Keeps i₀) (fun _ => Keeps i₀) := by
  refine .bind (Q := fun _ => At i₀ area page) (fun _ h => h) fun a => ?_
  rcases a.failed with - | e
  · refine .ite (fun _ => .pure fun _ h => h.1) fun _ => ?_
    exact .bind (frame_spec area page) fun _ => keeps_attempt.pre fun _ h => h.1
  · exact .throw fun _ h => h.1

theorem fault_spec (addr : ℕ) (access : Access) : Stable (Keeps i₀) (fault addr access) := by
  refine .read fun s hs => ?_
  rcases hat : s.inner.areaAt (addr / PAGE_SIZE * PAGE_SIZE) with - | ⟨start, area⟩
  · exact .pure fun _ h => h ▸ hs
  · refine .ite (fun _ => ?_) fun _ => .pure fun _ h => h ▸ hs
    exact .bind ((touch_spec area _).of_eq ⟨hs, areaAt_holds hat⟩) fun _ => .skip

theorem populatePage_spec (access : Access) (page : ℕ) :
    Stable (Keeps i₀) (populatePage access page) := by
  refine .read fun s hs => ?_
  rcases hat : s.inner.areaAt page with - | ⟨start, area⟩
  · exact .throw fun _ h => h ▸ hs
  · refine .ite (fun _ => ?_) fun _ => .throw fun _ h => h ▸ hs
    exact (touch_spec area _).of_eq ⟨hs, areaAt_holds hat⟩

theorem populate_spec (va len : ℕ) (write : Bool) : Stable (Keeps i₀) (populate va len write) := by
  refine .ite (fun _ => .skip) fun _ => ?_
  refine .ite (fun _ => .throw fun _ h => h) fun _ => ?_
  exact .forM (fun _ => Keeps i₀) fun _ _ _ _ => populatePage_spec _ _

theorem copyPage_spec (access : Access) (page : ℕ) : Stable (Keeps i₀) (copyPage access page) := by
  refine .read fun s hs => ?_
  rcases hat : s.inner.areaAt page with - | ⟨start, area⟩
  · exact .throw fun _ h => h ▸ hs
  refine .ite (fun _ => ?_) fun _ => .throw fun _ h => h ▸ hs
  refine .bind ((frame_spec area page).of_eq ⟨hs, areaAt_holds hat⟩) fun _ => ?_
  refine .bind (Q := fun _ => Keeps i₀) ?_ fun _ => ?_
  · exact .ite (fun _ => touch_spec area page) fun _ => .pure fun _ h => h.1
  -- the bytes go into the frame, whatever comes of it
  · refine .bind (Q := fun _ => Keeps i₀) (fun _ h => h) fun a => ?_
    exact .ite (fun _ => .throw fun _ h => h) fun _ => .skip

theorem eachPage_spec (va len : ℕ) (access : Access) :
    Stable (Keeps i₀) (eachPage va len access) := by
  refine .ite (fun _ => .skip) fun _ => ?_
  refine .forM (fun _ => Keeps i₀) fun _ _ _ _ => ?_
  exact .ite (fun _ => .throw fun _ h => h) fun _ => copyPage_spec _ _

/-! ### The break -/

/-- The break is not looked at. -/
theorem keeps_brk (f : Option Brk → Option Brk) {E : Error → Space → Prop} :
    Triple (Keeps i₀) (update fun i => { i with brk := f i.brk }) (fun _ => Keeps i₀) E :=
  .update fun _ hs => ⟨⟨hs.1.sound.of_eq rfl rfl, hs.1.billed.tables, hs.1.billed.charged,
    hs.1.billed.faults⟩, hs.2⟩

theorem setBrk_spec (start : ℕ) : Stable (Keeps i₀) (setBrk start) := by
  refine .seq (require_spec _) fun start _ => .look fun s _ => ?_
  refine .ite (fun _ => .throw fun _ h => h) fun _ => ?_
  exact keeps_brk fun _ => some ⟨start, start⟩

theorem resetBrk_spec (start : ℕ) : Stable (Keeps i₀) (resetBrk start) := by
  refine .bind (keeps_brk fun _ => none) fun _ => ?_
  refine .ite (fun _ => .skip) fun _ => ?_
  refine .seq (require_spec _) fun start _ => .look fun s _ => ?_
  refine .ite (fun _ => .throw fun _ h => h) fun _ => ?_
  exact keeps_brk fun _ => some ⟨start, start⟩

theorem moveBrk_spec (have_ need : ℕ) : Stable (Keeps i₀) (moveBrk have_ need) := by
  refine .ite (fun _ => ?_) fun _ => .ite (fun _ => unmap_spec _ _ _) fun _ => .skip
  exact .bind ((map_spec _ _ _ _ _ _).pre fun _ h => ⟨h, nofun⟩) fun _ => .skip

theorem brk_spec (want : ℕ) : Stable (Keeps i₀) (brk want) := by
  refine .look fun s _ => ?_
  rcases s.inner.brk with - | b
  · exact .skip
  refine .ite (fun _ => .skip) fun _ => ?_
  rcases pages b.current with e | have_
  · exact .skip
  rcases pages want with e | need
  · exact .skip
  refine .ite (fun _ => .skip) fun _ => ?_
  refine .handle (F := fun _ => Keeps i₀) ?_ fun _ => .skip
  refine .bind (moveBrk_spec _ _) fun _ => ?_
  exact .bind (keeps_brk fun b => b.map fun b => { b with current := want }) fun _ => .skip

/-! ### Runs -/

/-- Whether the kernel chooses the address. -/
def Op.chooses : Op → Bool
  | .map at_ .. => at_.isNone
  | .mapPlane .. => true
  | _ => false

/-- Whether the call is the data plane's own unmapping, or the end of the space. -/
def Op.unmapsPlane : Op → Bool
  | .unmapPlane .. => true
  | .clear => true
  | _ => false

/-- Nothing straddles the start of the mapping area when the kernel chooses. -/
def ClearFor (s : Space) (op : Op) : Prop := op.chooses = true → s.inner.Clear

def ClearAlong (s : Space) : List Op → Prop
  | [] => True
  | op :: ops => s.ClearFor op ∧ (s.step op).ClearAlong ops

theorem after_of_triple {α : Type} {x : SpaceM α} {P R : Space → Prop}
    (h : Triple P x (fun _ => R) (fun _ => R)) (hs : P s) : R (after x s) := by
  unfold after
  rcases hr : x s with ⟨a, s'⟩ | ⟨e, s'⟩
  · exact h.of_ok hs hr
  · exact h.of_error hs hr

/-- **Every call but the data plane's unmapping and the end of the space keeps what holds of the
space, and the data plane's areas.** -/
theorem step_keeps (h : s.inner.Inv 0) (hclear : s.ClearFor op)
    (hop : op.unmapsPlane = false) : Keeps s.inner (s.step op) := by
  have hs : Keeps s.inner s := ⟨h, .refl _⟩
  cases op with
  | map at_ len kind prot backing fixed =>
    exact after_of_triple (map_spec at_ len kind prot backing fixed)
      ⟨hs, fun hnone => hclear (by rw [hnone]; rfl)⟩
  | mapPlane memory first len write =>
    exact after_of_triple (mapPlane_spec memory first len write) ⟨hs, hclear rfl⟩
  | unmap va len only => exact after_of_triple (unmap_spec va len only) hs
  | unmapPlane va len memory => cases hop
  | clear => cases hop
  | protect va len prot only => exact after_of_triple (protect_spec va len prot only) hs
  | setBrk start => exact after_of_triple (setBrk_spec start) hs
  | resetBrk start => exact after_of_triple (resetBrk_spec start) hs
  | brk want => exact after_of_triple (brk_spec want) hs
  | discard va len => exact after_of_triple (discard_spec va len) hs
  | fault addr access => exact after_of_triple (fault_spec addr access) hs
  | populate va len write => exact after_of_triple (populate_spec va len write) hs
  | copyOut va len => exact after_of_triple (eachPage_spec va len .read) hs
  | copyIn va len => exact after_of_triple (eachPage_spec va len .write) hs

/-- Without areas, zero pages and tables nothing is owed. -/
theorem inv_bare (i : Inner) (hf : i.faults = []) : i.bare.Inv i.charged := by
  refine ⟨⟨⟨nofun, nofun, nofun⟩, nofun⟩, ?_, ?_, hf⟩
  · show (0 : ℕ) = tableCount MAP_END Inner.empty.ranges
    decide +kernel
  · show i.charged = Inner.empty.cost + i.charged
    rw [show Inner.empty.cost = 0 by decide +kernel, zero_add]

theorem clear_spec : Stable (fun s => s.inner.Inv 0) clear := by
  refine .update fun s hs => ?_
  dsimp only
  exact (inv_bare s.inner hs.billed.faults).settle

theorem new_inv (answers : ℕ → SpaceAnswer) : (new answers).inner.Inv 0 := inv_bare .empty rfl

theorem step_inv (h : s.inner.Inv 0) (hclear : s.ClearFor op) :
    (s.step op).inner.Inv 0 := by
  rcases hop : op.unmapsPlane with - | -
  · exact (step_keeps h hclear hop).1
  · cases op with
    | unmapPlane va len memory => exact after_of_triple (unmapPlane_spec va len memory) h
    | clear =>
      have hclear := after_of_triple clear_spec h
      exact hclear
    | _ => cases hop

theorem run_inv {ops : List Op} (h : s.inner.Inv 0) (hclear : s.ClearAlong ops) :
    (s.run ops).inner.Inv 0 := by
  induction ops generalizing s with
  | nil => exact h
  | cons op ops ih => exact ih (step_inv h hclear.1) hclear.2

/-- **The areas of every reachable space**: laid out well, with zero pages in zero areas
only, kept for the data plane by every call but its own unmapping and the space's end, and
out of the way of what the kernel chooses. -/
theorem run_laid_out (answers : ℕ → SpaceAnswer) (ops : List Op)
    (hclear : (new answers).ClearAlong ops) :
    ((new answers).run ops).inner.Sound ∧
      (∀ op, ((new answers).run ops).ClearFor op → op.unmapsPlane = false →
        ((new answers).run ops).inner.PlaneKept (((new answers).run ops).step op).inner) ∧
      (((new answers).run ops).inner.Clear → ∀ len va,
        ((new answers).run ops).inner.findFree len = .ok va →
          ((new answers).run ops).inner.Free va (va + len)) := by
  have hinv := run_inv (new_inv answers) hclear
  refine ⟨hinv.sound, fun op hop hplane => (step_keeps hinv hop hplane).2, ?_⟩
  exact fun hc len va hva => (Inner.findFree_spec hinv.sound.layout hc hva).1

def granted : ℕ → SpaceAnswer := fun _ => ⟨none, none, false⟩

/-- A zero area below the mapping area, one of the data plane's in it, and a first touch. -/
def mapsTwo : List Op :=
  [.map (some IMAGE_START) PAGE_SIZE .mapping (Prot.READ ||| Prot.WRITE) .zero false,
    .mapPlane 0 0 PAGE_SIZE false, .fault IMAGE_START .write]

theorem clear_of_ranges
    (h : ∀ p ∈ i.ranges, p.1 < MAP_BASE → p.2 ≤ MAP_BASE + PAGE_SIZE) : i.Clear :=
  fun s a hs => h (s, a.stop) (Inner.mem_ranges.mpr ⟨a, hs, rfl⟩)

theorem mapsTwo_clearAlong : (new granted).ClearAlong mapsTwo :=
  ⟨nofun, fun _ => clear_of_ranges (by decide +kernel), nofun, trivial⟩

theorem run_laid_out_mapsTwo : ((new granted).run mapsTwo).inner.ranges =
      [(IMAGE_START, IMAGE_START + PAGE_SIZE), (MAP_BASE + PAGE_SIZE, MAP_BASE + 2 * PAGE_SIZE)] ∧
    (((new granted).run mapsTwo).inner.zero.get IMAGE_START).isSome = true ∧
    ((new granted).run mapsTwo).inner.Sound :=
  ⟨by decide +kernel, by decide +kernel, (run_laid_out granted mapsTwo mapsTwo_clearAlong).1⟩

/-- Four pages from the one below the mapping area, and one where the kernel chooses. -/
def straddle : List Op :=
  [.map (some (MAP_BASE - PAGE_SIZE)) (4 * PAGE_SIZE) .mapping (Prot.READ ||| Prot.WRITE) .zero
      false,
    .map none PAGE_SIZE .mapping (Prot.READ ||| Prot.WRITE) .zero false]

/-- The kernel chooses the second page of the area that straddles. -/
theorem straddling_overlap : ((new granted).run straddle).inner.ranges =
      [(MAP_BASE - PAGE_SIZE, MAP_BASE + 3 * PAGE_SIZE),
        (MAP_BASE + PAGE_SIZE, MAP_BASE + 2 * PAGE_SIZE)] ∧
      ¬ ((new granted).run straddle).inner.Sound := by
  have hranges : ((new granted).run straddle).inner.ranges =
      [(MAP_BASE - PAGE_SIZE, MAP_BASE + 3 * PAGE_SIZE),
        (MAP_BASE + PAGE_SIZE, MAP_BASE + 2 * PAGE_SIZE)] := by decide +kernel
  refine ⟨hranges, fun hsound => ?_⟩
  obtain ⟨a, ha, hstop⟩ := Inner.mem_ranges.mp (hranges ▸ List.mem_cons_self)
  obtain ⟨b, hb, -⟩ := Inner.mem_ranges.mp
    (hranges ▸ List.mem_cons_of_mem _ (List.mem_singleton_self _))
  have := hsound.layout.apart _ a _ b ha hb (by decide)
  rw [hstop] at this
  exact absurd this (by decide)

/-- **The accounting is exact.**  Over areas alone: the running sum is the full count after
every sequence of changes, and what a removal reclaims is what it frees and nothing that is
left.  In a space: neither fault ever happens, and after every call what is charged is what
the areas, the zero pages and the tables cost. -/
theorem run_charged (answers : ℕ → SpaceAnswer) (ops : List Op) :
    (∀ top t cs, Tally.Exact top t → t.AllowedAlong top cs →
      (t.run top cs).count = tableCount top (t.run top cs).areas ∧
        ∀ lo hi, lo < hi → ∀ size ∈ Charges.TABLE_REGIONS,
          (t.run top cs).Reclaims top lo hi size) ∧
    ((new answers).ClearAlong ops → ((new answers).run ops).inner.faults = [] ∧
      ((new answers).run ops).inner.tables
        = tableCount MAP_END ((new answers).run ops).inner.ranges ∧
      ((new answers).run ops).inner.charged
        = Charges.AREA * ((new answers).run ops).inner.areas.size
          + Charges.ZERO_PAGE * ((new answers).run ops).inner.zero.size
          + Charges.PAGE * ((new answers).run ops).inner.tables) := by
  constructor
  · intro top t cs h hcs
    have hrun := h.run hcs
    exact ⟨hrun.count, fun lo hi hlo size hsize => hrun.reclaims hlo hsize⟩
  intro hclear
  obtain ⟨-, ht, hc, hf⟩ := run_inv (new_inv answers) hclear
  refine ⟨hf, ht, hc.trans ?_⟩
  rw [mul_comm Charges.AREA, mul_comm Charges.ZERO_PAGE, mul_comm Charges.PAGE]
  rfl

theorem run_charged_mapsTwo : (Tally.run MAP_END ⟨[], 0⟩ [.add (IMAGE_START, MAP_BASE)]).count
        = tableCount MAP_END (Tally.run MAP_END ⟨[], 0⟩ [.add (IMAGE_START, MAP_BASE)]).areas ∧
      ((new granted).run mapsTwo).inner.faults = [] :=
  ⟨((run_charged granted mapsTwo).1 MAP_END ⟨[], 0⟩ [.add (IMAGE_START, MAP_BASE)]
      ⟨⟨.nil, nofun⟩, by decide +kernel⟩ ⟨⟨by decide, nofun⟩, trivial⟩).1,
    ((run_charged granted mapsTwo).2 mapsTwo_clearAlong).1⟩

/-- The run of the overlap, and then a protection of the page that lies in both areas: it is
split out of the one that straddles, without a charge. -/
theorem straddling_undercharged : ((new granted).run (straddle ++
      [.protect (MAP_BASE + PAGE_SIZE) PAGE_SIZE Prot.READ none])).inner.faults
      = [.accountingBroken] := by
  decide +kernel

end Space

end Moruna.Kernel

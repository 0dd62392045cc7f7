/-
Moruna/Kernel/Account.lean

Memory accounts: a tree of ledgers, and the charges made to them.

Carving a child out of an account holds the child's whole limit there and charges the
child's record to a payer, which may be another account; the two locks are never held
together, so a carve is two steps and anything may happen between them.  A charge and a
child each keep their account alive, and a record lives as long as the account it is of.
The kernel says "accounting broken" where more is given back than was taken; `broken`
records that it did.
-/
import Moruna.Lib.Registry
import Moruna.Kernel.Quota

namespace Moruna.Kernel

open Option Registry

/-- A memory account.  Accounts and charges are named by their ids in the books. -/
structure Account where
  name : List UInt8
  ledger : Ledger
  /-- The account its limit is held in; none for the machine's. -/
  parent : Option ℕ
  limit : UInt64
  /-- The charge of its own record. -/
  record : Option ℕ
  deriving DecidableEq

/-- Bytes charged to an account and not given back. -/
structure Charge where
  account : ℕ
  bytes : UInt64
  deriving DecidableEq

/-- A carve between its two halves: the limit is held, the record not yet charged. -/
structure Carve where
  parent : ℕ
  payer : ℕ
  name : List UInt8
  limit : UInt64
  deriving DecidableEq

/-- The accounts and the charges that are alive, and the carves under way. -/
structure Books where
  accounts : Registry Account
  charges : Registry Charge
  carves : Registry Carve
  /-- An "accounting broken" line has been printed. -/
  broken : Bool

namespace Books

/-- The machine's account and nothing else. -/
def machine (limit : UInt64) : Books where
  accounts := Registry.empty.insert ⟨"machine".toUTF8.toList, .new limit, none, limit, none⟩
  charges := .empty
  carves := .empty
  broken := false

def ledger (b : Books) (a : ℕ) : Ledger := ((b.accounts.get a).map Account.ledger).getD (.new 0)

/-! ### Calls -/

variable (b : Books)

/-- `f` on the ledger of account `a`, under its lock. -/
def onLedger {ε : Type} (b : Books) (a : ℕ) (f : Ledger → Except ε Unit × Ledger) :
    Except ε Unit × Books :=
  let (result, ledger) := f (b.ledger a)
  (result, { b with accounts := b.accounts.modify a fun account => { account with ledger } })

def tryCharge (a : ℕ) (bytes : UInt64) : Except Exceeded Unit × Books :=
  if bytes = 0 then (.ok (), b) else b.onLedger a (·.charge bytes)

def charge (a : ℕ) (bytes : UInt64) : Except Error Unit × Books :=
  let (result, b) := b.tryCharge a bytes
  (result.mapError fun _ => .quotaExceeded, b)

def uncharge (b : Books) (a : ℕ) (bytes : UInt64) : Books :=
  if bytes = 0 then b
  else match b.onLedger a (·.uncharge bytes) with
    | (.ok _, b) => b
    | (.error _, b) => { b with broken := true }

/-- `Charge::new`: a charge of `bytes` to account `a`, and its id. -/
def newCharge (a : ℕ) (bytes : UInt64) : Except Error ℕ × Books :=
  match b.charge a bytes with
  | (.ok _, b) => (.ok b.charges.next, { b with charges := b.charges.insert ⟨a, bytes⟩ })
  | (.error e, b) => (.error e, b)

def grow (c : ℕ) (bytes : UInt64) : Except Error Unit × Books :=
  match b.charges.get c with
  | none => (.error .badState, b)
  | some held =>
    match b.charge held.account bytes with
    | (.ok _, b) =>
      (.ok (), { b with charges := b.charges.modify c fun held =>
        { held with bytes := held.bytes + bytes } })
    | (.error e, b) => (.error e, b)

/-- The second half of a charge and uncharge pair: `bytes` of what `c` holds. -/
def giveBack (c : ℕ) (bytes : UInt64) : Books :=
  match b.charges.get c with
  | none => b
  | some held =>
    let b := b.uncharge held.account bytes
    { b with charges := b.charges.modify c fun held => { held with bytes := held.bytes - bytes } }

def dropCharge (c : ℕ) : Books :=
  match b.charges.get c with
  | none => b
  | some held =>
    let b := b.uncharge held.account held.bytes
    { b with charges := b.charges.erase c }

/-- The first half of a carve: the arguments are checked and the limit is held. -/
def carveReserve (parent : ℕ) (name : List UInt8) (limit : UInt64) : Except Error Unit × Books :=
  if !validName name || limit = 0 || !isMultipleOf limit (UInt64.ofNat PAGE_SIZE) then
    (.error .invalidArgs, b)
  else
    let (result, b) := b.onLedger parent (·.reserve limit)
    (result.mapError fun _ => .quotaExceeded, b)

/-- The second half: the record is charged to the payer, or the limit is given back. -/
def carveRecord (carve : Carve) : Except Error ℕ × Books :=
  match b.newCharge carve.payer (UInt64.ofNat Charges.OBJECT) with
  | (.error e, b) =>
    match b.onLedger carve.parent (·.unreserve carve.limit) with
    | (.ok _, b) => (.error e, b)
    | (.error _, b) => (.error .badState, { b with broken := true })
  | (.ok record, b) =>
    let account : Account :=
      ⟨carve.name, .new carve.limit, some carve.parent, carve.limit, some record⟩
    (.ok b.accounts.next, { b with accounts := b.accounts.insert account })

/-- A child of account `parent`, its record charged to `payer`. -/
def carve (parent payer : ℕ) (name : List UInt8) (limit : UInt64) : Except Error ℕ × Books :=
  match b.carveReserve parent name limit with
  | (.error e, b) => (.error e, b)
  | (.ok _, b) => b.carveRecord ⟨parent, payer, name, limit⟩

/-- The drop of account `a`.  Its record is a charge like any other from then on. -/
def dropAccount (a : ℕ) : Books :=
  match b.accounts.get a with
  | none => b
  | some account =>
    let b := if account.ledger.used ≠ 0 then { b with broken := true } else b
    let b := match account.parent with
      | none => b
      | some parent =>
        match b.onLedger parent (·.unreserve account.limit) with
        | (.ok _, b) => b
        | (.error _, b) => { b with broken := true }
    { b with accounts := b.accounts.erase a }

/-! ### Carves under way -/

/-- A carve's first half, remembered until its second. -/
def beginCarve (carve : Carve) : Books :=
  match b.carveReserve carve.parent carve.name carve.limit with
  | (.error _, b) => b
  | (.ok _, b) => { b with carves := b.carves.insert carve }

def endCarve (k : ℕ) : Books :=
  match b.carves.get k with
  | none => b
  | some carve => { (b.carveRecord carve).2 with carves := b.carves.erase k }

/-- Charge `c` is the record of an account that is alive. -/
def IsRecord (b : Books) (c : ℕ) : Prop :=
  ∃ a account, b.accounts.get a = some account ∧ account.record = some c

/-- Nothing that is alive refers to account `a`. -/
structure Unreferenced (b : Books) (a : ℕ) : Prop where
  charges : ∀ c held, b.charges.get c = some held → held.account ≠ a
  children : ∀ i account, b.accounts.get i = some account → account.parent ≠ some a
  carves : ∀ k carve, b.carves.get k = some carve → carve.parent ≠ a ∧ carve.payer ≠ a

/-- A call on the accounts, whether it is refused or not, or a drop. -/
inductive Step : Books → Books → Prop where
  | newCharge {b : Books} {a : ℕ} (bytes : UInt64) (ha : (b.accounts.get a).isSome) :
    Step b (b.newCharge a bytes).2
  | grow {b : Books} {c : ℕ} (bytes : UInt64) (hc : (b.charges.get c).isSome)
      (hr : ¬ b.IsRecord c) : Step b (b.grow c bytes).2
  | giveBack {b : Books} {c : ℕ} {held : Charge} {bytes : UInt64}
      (hc : b.charges.get c = some held) (hr : ¬ b.IsRecord c) (hb : bytes ≤ held.bytes) :
    Step b (b.giveBack c bytes)
  | dropCharge {b : Books} {c : ℕ} (hr : ¬ b.IsRecord c) : Step b (b.dropCharge c)
  | beginCarve {b : Books} {carve : Carve} (hp : (b.accounts.get carve.parent).isSome)
      (hq : (b.accounts.get carve.payer).isSome) : Step b (b.beginCarve carve)
  | endCarve {b : Books} (k : ℕ) : Step b (b.endCarve k)
  | dropAccount {b : Books} {a : ℕ} (ha : b.Unreferenced a) : Step b (b.dropAccount a)

/-! ### The invariant -/

def chargedTo (charges : Registry Charge) (a : ℕ) : ℕ :=
  charges.sum fun _ held => if held.account = a then held.bytes.toNat else 0

def childLimits (accounts : Registry Account) (a : ℕ) : ℕ :=
  accounts.sum fun _ account => if account.parent = some a then account.limit.toNat else 0

/-- The limits held in account `a` for carves under way. -/
def carveLimits (carves : Registry Carve) (a : ℕ) : ℕ :=
  carves.sum fun _ carve => if carve.parent = a then carve.limit.toNat else 0

/-- **Books that balance.**  `high` is the most each account has had charged so far. -/
structure Inv (limit : UInt64) (high : ℕ → ℕ) (b : Books) : Prop where
  root : ∀ a account, b.accounts.get a = some account → (account.parent = none ↔ a = 0)
  rootLimit : ∀ account, b.accounts.get 0 = some account → account.limit = limit
  born : 0 < b.accounts.next
  limits : ∀ a account, b.accounts.get a = some account → account.ledger.limit = account.limit
  parents : ∀ a account p, b.accounts.get a = some account → account.parent = some p →
    (b.accounts.get p).isSome
  owners : ∀ c held, b.charges.get c = some held → (b.accounts.get held.account).isSome
  underway : ∀ k carve, b.carves.get k = some carve →
    (b.accounts.get carve.parent).isSome ∧ (b.accounts.get carve.payer).isSome
  records : ∀ a account c, b.accounts.get a = some account → account.record = some c →
    ∃ held, b.charges.get c = some held ∧ held.bytes = UInt64.ofNat Charges.OBJECT
  ownRecord : ∀ a a' account account' c, b.accounts.get a = some account →
    b.accounts.get a' = some account' → account.record = some c → account'.record = some c →
    a = a'
  used : ∀ a account, b.accounts.get a = some account →
    account.ledger.used.toNat = chargedTo b.charges a
  reserved : ∀ a account, b.accounts.get a = some account →
    account.ledger.reserved.toNat = childLimits b.accounts a + carveLimits b.carves a
  fits : ∀ a account, b.accounts.get a = some account → account.ledger.Fits
  peak : ∀ a account, b.accounts.get a = some account →
    account.ledger.peak.toNat = high a ∧ account.ledger.used.toNat ≤ high a
  unborn : ∀ a, b.accounts.next ≤ a → high a = 0
  sound : b.broken = false

/-- The most each account has had charged, once `b` is reached too. -/
def raise (high : ℕ → ℕ) (b : Books) (a : ℕ) : ℕ := max (high a) (b.ledger a).used.toNat

def setLedger (a : ℕ) (ledger : Ledger) : Books :=
  { b with accounts := b.accounts.modify a fun account => { account with ledger } }

variable {account : Account} {a : ℕ}

theorem ledger_eq {b : Books} (h : b.accounts.get a = some account) :
    b.ledger a = account.ledger := by
  rw [ledger, h]
  rfl

theorem onLedger_eq {ε : Type} (a : ℕ) (f : Ledger → Except ε Unit × Ledger) :
    b.onLedger a f = ((f (b.ledger a)).1, b.setLedger a (f (b.ledger a)).2) := rfl

/-- Writing an account's figures back as they are changes nothing. -/
theorem setLedger_self (a : ℕ) : b.setLedger a (b.ledger a) = b := by
  rw [setLedger, modify_eq_self fun account h => by rw [ledger_eq h]]

theorem setLedger_charges (a : ℕ) (l : Ledger) : (b.setLedger a l).charges = b.charges := rfl

theorem setLedger_carves (a : ℕ) (l : Ledger) : (b.setLedger a l).carves = b.carves := rfl

theorem get_setLedger {b : Books} {i : ℕ} {l : Ledger}
    (h : (b.setLedger a l).accounts.get i = some account) :
    ∃ old, b.accounts.get i = some old ∧
      account = { old with ledger := if i = a then l else old.ledger } := by
  rcases get_modify_eq_some.mp h with ⟨hi, hg⟩ | ⟨hi, old, hg, rfl⟩
  · exact ⟨account, hg, by rw [if_neg hi]⟩
  · exact ⟨old, hg, by rw [if_pos hi]⟩

theorem childLimits_setLedger (a i : ℕ) (l : Ledger) :
    childLimits (b.setLedger a l).accounts i = childLimits b.accounts i :=
  sum_modify_of_eq fun _ => rfl

/-! ### What a change of figures keeps -/

section Changes

variable {limit : UInt64} {high : ℕ → ℕ} {b : Books}

variable (hb : b.Inv limit high)

include hb

/-- Staying where one is raises nothing. -/
theorem Inv.stay : b.Inv limit (raise high b) :=
  { hb with
    peak := fun a account ha => by
      have := hb.peak a account ha
      rw [raise, ledger_eq ha, max_eq_left this.2]
      exact this
    unborn := fun a ha => by
      rw [raise, hb.unborn a ha, ledger, b.accounts.fresh a ha]
      rfl }

variable {charges : Registry Charge} {n : UInt64} {carves : Registry Carve}
variable {l : Ledger} {k p : ℕ} {carve : Carve} {e : Error}

/-- **New figures for one account.**  Its charges and the carves under way may change
with it, as long as the sums follow. -/
theorem Inv.refigure (ha : b.accounts.get a = some account)
    (hlimit : l.limit = account.ledger.limit) (hfits : l.Fits)
    (hused : l.used.toNat = chargedTo charges a)
    (hreserved : l.reserved.toNat = childLimits b.accounts a + carveLimits carves a)
    (hpeak : l.peak.toNat = max account.ledger.peak.toNat l.used.toNat)
    (hcharged : ∀ i, i ≠ a → chargedTo charges i = chargedTo b.charges i)
    (hcarved : ∀ i, i ≠ a → carveLimits carves i = carveLimits b.carves i)
    (howners : ∀ c held, charges.get c = some held → (b.accounts.get held.account).isSome)
    (hunderway : ∀ k carve, carves.get k = some carve → (b.accounts.get carve.parent).isSome ∧
      (b.accounts.get carve.payer).isSome)
    (hrecords : ∀ c, b.IsRecord c → charges.get c = b.charges.get c) :
    Inv limit (raise high { b.setLedger a l with charges, carves })
      { b.setLedger a l with charges, carves } where
  root i acc hi := by
    obtain ⟨old, hold, rfl⟩ := get_setLedger hi
    exact hb.root i old hold
  rootLimit acc hi := by
    obtain ⟨old, hold, rfl⟩ := get_setLedger hi
    exact hb.rootLimit old hold
  born := hb.born
  limits i acc hi := by
    obtain ⟨old, hold, rfl⟩ := get_setLedger hi
    rcases eq_or_ne i a with rfl | hia
    · rw [ha] at hold
      cases hold
      simpa [hlimit] using hb.limits i account ha
    · simpa [hia] using hb.limits i old hold
  parents i acc p hi hp := by
    obtain ⟨old, hold, rfl⟩ := get_setLedger hi
    exact get_modify_isSome.trans (hb.parents i old p hold hp)
  owners c held hc := get_modify_isSome.trans (howners c held hc)
  underway k carve hk :=
    ⟨get_modify_isSome.trans (hunderway k carve hk).1,
      get_modify_isSome.trans (hunderway k carve hk).2⟩
  records i acc c hi hc := by
    obtain ⟨old, hold, rfl⟩ := get_setLedger hi
    obtain ⟨held, hheld, hbytes⟩ := hb.records i old c hold hc
    exact ⟨held, (hrecords c ⟨i, old, hold, hc⟩).trans hheld, hbytes⟩
  ownRecord i j acc acc' c hi hj hc hc' := by
    obtain ⟨old, hold, rfl⟩ := get_setLedger hi
    obtain ⟨old', hold', rfl⟩ := get_setLedger hj
    exact hb.ownRecord i j old old' c hold hold' hc hc'
  used i acc hi := by
    obtain ⟨old, hold, rfl⟩ := get_setLedger hi
    rcases eq_or_ne i a with rfl | hia
    · simpa using hused
    · simpa [hia, hcharged i hia] using hb.used i old hold
  reserved i acc hi := by
    obtain ⟨old, hold, rfl⟩ := get_setLedger hi
    show _ = childLimits (b.setLedger a l).accounts i + carveLimits carves i
    rw [childLimits_setLedger]
    rcases eq_or_ne i a with rfl | hia
    · simpa using hreserved
    · simpa [hia, hcarved i hia] using hb.reserved i old hold
  fits i acc hi := by
    obtain ⟨old, hold, rfl⟩ := get_setLedger hi
    rcases eq_or_ne i a with rfl | hia
    · simpa using hfits
    · simpa [hia] using hb.fits i old hold
  peak i acc hi := by
    have hled : ledger { b.setLedger a l with charges, carves } i = acc.ledger := ledger_eq hi
    obtain ⟨old, hold, rfl⟩ := get_setLedger hi
    have hp := hb.peak i old hold
    rw [raise, hled]
    rcases eq_or_ne i a with rfl | hia
    · rw [ha] at hold
      cases hold
      simp only [if_true, hpeak, hp.1, le_max_right, and_self]
    · simp only [if_neg hia]
      rw [max_eq_left hp.2]
      exact hp
  unborn i hi := by
    have hnone : (b.setLedger a l).accounts.get i = none := (b.setLedger a l).accounts.fresh i hi
    rw [raise, hb.unborn i hi, ledger, hnone]
    rfl
  sound := hb.sound

/-! ### What each call does to the figures -/

/-- A charge is refused and changes nothing, or adds its bytes to what is used. -/
theorem Inv.charge (ha : b.accounts.get a = some account) (n : UInt64) :
    (∃ e, b.charge a n = (.error e, b)) ∨
    ∃ l, b.charge a n = (.ok (), b.setLedger a l) ∧ l.limit = account.ledger.limit ∧
      l.reserved = account.ledger.reserved ∧
      l.used.toNat = account.ledger.used.toNat + n.toNat ∧
      l.peak.toNat = max account.ledger.peak.toNat l.used.toNat ∧ l.Fits := by
  have hp := hb.peak a account ha
  rcases eq_or_ne n 0 with rfl | hn
  · -- nothing asked: the ledger is not touched
    refine .inr ⟨account.ledger, ?_, rfl, rfl, by simp, ?_, hb.fits a account ha⟩
    · rw [← ledger_eq ha, setLedger_self]
      simp [Books.charge, tryCharge, Except.mapError]
    · rw [hp.1, max_eq_left hp.2]
  · rcases hf : account.ledger.fits n with _ | _
    · refine .inl ⟨.quotaExceeded, ?_⟩
      rw [Books.charge, tryCharge, if_neg hn, onLedger_eq, ledger_eq ha,
        Ledger.charge_refused hf, ← ledger_eq ha, setLedger_self]
      rfl
    · obtain ⟨l, hl, hlim, hres, hused, hpeak⟩ := Ledger.charge_ok hf
      have hfit := Ledger.fits_iff.mp hf
      refine .inr ⟨l, ?_, hlim, hres, hused, by rw [hpeak, hused], ?_⟩
      · rw [Books.charge, tryCharge, if_neg hn, onLedger_eq, ledger_eq ha, hl]
        rfl
      · rw [Ledger.Fits, hlim, hres]
        omega

/-- Bytes that were charged can be given back. -/
theorem Inv.uncharge (ha : b.accounts.get a = some account)
    (hn : n.toNat ≤ account.ledger.used.toNat) :
    ∃ l, b.uncharge a n = b.setLedger a l ∧ l.limit = account.ledger.limit ∧
      l.reserved = account.ledger.reserved ∧
      l.used.toNat + n.toNat = account.ledger.used.toNat ∧
      l.peak.toNat = max account.ledger.peak.toNat l.used.toNat ∧ l.Fits := by
  have hp := hb.peak a account ha
  have hfit := hb.fits a account ha
  rcases eq_or_ne n 0 with rfl | hn0
  · refine ⟨account.ledger, ?_, rfl, rfl, by simp, ?_, hfit⟩
    · rw [← ledger_eq ha, setLedger_self]
      simp [Books.uncharge]
    · rw [hp.1, max_eq_left hp.2]
  · obtain ⟨l, hl, hlim, hres, hused, hpeak⟩ := Ledger.uncharge_ok hn
    refine ⟨l, ?_, hlim, hres, hused, ?_, ?_⟩
    · rw [Books.uncharge, if_neg hn0, onLedger_eq, ledger_eq ha, hl]
    · rw [hpeak, max_eq_left (by omega)]
    · unfold Ledger.Fits at hfit ⊢
      rw [hlim, hres]
      omega

omit hb

theorem chargedTo_insert (charges : Registry Charge) (held : Charge) (i : ℕ) :
    chargedTo (charges.insert held) i
      = chargedTo charges i + if held.account = i then held.bytes.toNat else 0 :=
  sum_insert _ _ _

variable {c : ℕ} {held : Charge}

theorem le_chargedTo (hc : charges.get c = some held) :
    held.bytes.toNat ≤ chargedTo charges held.account := by
  have := le_sum hc fun _ (h : Charge) => if h.account = held.account then h.bytes.toNat else 0
  rw [if_pos rfl] at this
  exact this

include hb

theorem Inv.newCharge (ha : (b.accounts.get a).isSome) (n : UInt64) :
    (∃ e, b.newCharge a n = (.error e, b)) ∨
    (∃ c, (b.newCharge a n).1 = .ok c) ∧
      (b.newCharge a n).2.Inv limit (raise high (b.newCharge a n).2) := by
  obtain ⟨account, hacc⟩ := isSome_iff_exists.mp ha
  rcases hb.charge hacc n with ⟨e, he⟩ | ⟨l, hl, hlim, hres, hused, hpeak, hfit⟩
  · exact .inl ⟨e, by rw [Books.newCharge, he]⟩
  refine .inr ⟨⟨b.charges.next, by rw [Books.newCharge, hl]; rfl⟩, ?_⟩
  simp only [Books.newCharge, hl, setLedger_charges]
  refine hb.refigure hacc hlim hfit ?_ ?_ hpeak ?_ (fun _ _ => rfl) ?_ hb.underway ?_
  · rw [hused, hb.used a account hacc, chargedTo_insert, if_pos rfl]
  · rw [hres]
    exact hb.reserved a account hacc
  · intro i hi
    rw [chargedTo_insert, if_neg (Ne.symm hi), add_zero]
  · exact forall_insert ha hb.owners
  · rintro c ⟨i, acc, hi, hc⟩
    obtain ⟨held, hheld, -⟩ := hb.records i acc c hi hc
    rw [get_insert_of_some hheld, hheld]

/-- A change of what one charge holds, with the figures of its account. -/
theorem Inv.recharge (hc : b.charges.get c = some held) (hr : ¬ b.IsRecord c)
    (ha : b.accounts.get held.account = some account)
    (hlimit : l.limit = account.ledger.limit) (hres : l.reserved = account.ledger.reserved)
    (hfit : l.Fits) (hpeak : l.peak.toNat = max account.ledger.peak.toNat l.used.toNat)
    (hnext : charges.next = b.charges.next)
    (hother : ∀ c', c' ≠ c → charges.get c' = b.charges.get c')
    (hself : ∀ held', charges.get c = some held' → held'.account = held.account)
    (hused : l.used.toNat + held.bytes.toNat
      = account.ledger.used.toNat + (charges.get c).elim 0 (·.bytes.toNat)) :
    Inv limit (raise high { b.setLedger held.account l with charges })
      { b.setLedger held.account l with charges } := by
  -- only the sum of its account moves, by the difference
  have hsum (i : ℕ) : chargedTo charges i + (if held.account = i then held.bytes.toNat else 0)
      = chargedTo b.charges i
        + if held.account = i then (charges.get c).elim 0 (·.bytes.toNat) else 0 := by
    have := sum_of_differ b.charges charges hnext (lt_next hc) hother
      fun _ h => if h.account = i then h.bytes.toNat else 0
    rw [hc] at this
    rcases hg : charges.get c with - | held'
    · simpa [hg, chargedTo] using this
    · simpa [hg, hself held' hg, chargedTo] using this
  refine hb.refigure ha hlimit hfit ?_ ?_ hpeak ?_ (fun _ _ => rfl) ?_ hb.underway ?_
  · have h := hsum held.account
    have hu := hb.used _ account ha
    rw [if_pos rfl, if_pos rfl] at h
    omega
  · rw [hres]
    exact hb.reserved held.account account ha
  · intro i hi
    simpa [Ne.symm hi] using hsum i
  · intro c' held' hc'
    rcases eq_or_ne c' c with rfl | hne
    · rw [hself held' hc']
      exact hb.owners c' held hc
    · rw [hother c' hne] at hc'
      exact hb.owners c' held' hc'
  · intro c' hc'
    exact hother c' fun h => hr (h ▸ hc')

theorem Inv.grow (hc : (b.charges.get c).isSome) (hr : ¬ b.IsRecord c) (n : UInt64) :
    (∃ e, b.grow c n = (.error e, b)) ∨
      (b.grow c n).2.Inv limit (raise high (b.grow c n).2) := by
  obtain ⟨held, hheld⟩ := isSome_iff_exists.mp hc
  obtain ⟨account, ha⟩ := isSome_iff_exists.mp (hb.owners c held hheld)
  rcases hb.charge ha n with ⟨e, he⟩ | ⟨l, hl, hlim, hres, hused, hpeak, hfit⟩
  · exact .inl ⟨e, by rw [Books.grow, hheld]; simp only [he]⟩
  refine .inr ?_
  simp only [Books.grow, hheld, hl, setLedger_charges]
  have hadd : (held.bytes + n).toNat = held.bytes.toNat + n.toNat := by
    have := l.used.toNat_lt
    have := le_chargedTo hheld
    have := hb.used _ account ha
    rw [UInt64.toNat_add]
    omega
  refine hb.recharge hheld hr ha hlim hres hfit hpeak rfl (fun c' hc' => if_neg hc') ?_ ?_
  · simp [get_modify, hheld]
  · simp only [get_modify, if_true, hheld, map_some, elim_some, hadd]
    omega

theorem Inv.giveBack
    (hheld : b.charges.get c = some held) (hr : ¬ b.IsRecord c) (hn : n ≤ held.bytes) :
    (b.giveBack c n).Inv limit (raise high (b.giveBack c n)) := by
  obtain ⟨account, ha⟩ := isSome_iff_exists.mp (hb.owners c held hheld)
  have hle := le_chargedTo hheld
  have hu := hb.used _ account ha
  have hn' := UInt64.le_iff_toNat_le.mp hn
  obtain ⟨l, hl, hlim, hres, hused, hpeak, hfit⟩ := hb.uncharge ha (n := n) (by omega)
  simp only [Books.giveBack, hheld, hl, setLedger_charges]
  refine hb.recharge hheld hr ha hlim hres hfit hpeak rfl (fun c' hc' => if_neg hc') ?_ ?_
  · simp [get_modify, hheld]
  · simp only [get_modify, if_true, hheld, map_some, elim_some, UInt64.toNat_sub_of_le _ _ hn]
    omega

theorem Inv.dropCharge (hr : ¬ b.IsRecord c) :
    (b.dropCharge c).Inv limit (raise high (b.dropCharge c)) := by
  rcases hheld : b.charges.get c with _ | held
  · rw [show b.dropCharge c = b by rw [Books.dropCharge, hheld]]
    exact hb.stay
  obtain ⟨account, ha⟩ := isSome_iff_exists.mp (hb.owners c held hheld)
  have hle := le_chargedTo hheld
  have hu := hb.used _ account ha
  obtain ⟨l, hl, hlim, hres, hused, hpeak, hfit⟩ := hb.uncharge ha (n := held.bytes) (by omega)
  simp only [Books.dropCharge, hheld, hl, setLedger_charges]
  refine hb.recharge hheld hr ha hlim hres hfit hpeak rfl (fun c' hc' => if_neg hc') ?_ ?_
  · simp [get_erase]
  · simp only [get_erase, if_true, elim_none, add_zero]
    exact hused

omit hb in
/-- The first half of a carve is refused and changes nothing, or holds its limit. -/
theorem carveReserve_cases (hp : b.accounts.get p = some account) (name : List UInt8) (n : UInt64) :
    (∃ e, b.carveReserve p name n = (.error e, b)) ∨
    ∃ l, b.carveReserve p name n = (.ok (), b.setLedger p l) ∧
      l.limit = account.ledger.limit ∧ l.used = account.ledger.used ∧
      l.reserved.toNat = account.ledger.reserved.toNat + n.toNat ∧
      l.peak = account.ledger.peak ∧ l.Fits := by
  unfold Books.carveReserve
  split
  · exact .inl ⟨_, rfl⟩
  rw [onLedger_eq, ledger_eq hp]
  rcases hf : account.ledger.fits n with _ | _
  · refine .inl ⟨.quotaExceeded, ?_⟩
    rw [Ledger.reserve_refused hf, ← ledger_eq hp, setLedger_self]
    rfl
  obtain ⟨l, hl, hlim, hused, hres, hpeak⟩ := Ledger.reserve_ok hf
  have hfit := Ledger.fits_iff.mp hf
  refine .inr ⟨l, by rw [hl]; rfl, hlim, hused, hres, hpeak, ?_⟩
  rw [Ledger.Fits, hlim, hused]
  omega

/-- A limit that is held can be given back. -/
theorem Inv.unreserve (hp : b.accounts.get p = some account)
    (hn : n.toNat ≤ account.ledger.reserved.toNat) :
    ∃ l, b.onLedger p (·.unreserve n) = (.ok (), b.setLedger p l) ∧
      l.limit = account.ledger.limit ∧ l.used = account.ledger.used ∧
      l.reserved.toNat + n.toNat = account.ledger.reserved.toNat ∧
      l.peak = account.ledger.peak ∧ l.Fits := by
  obtain ⟨l, hl, hlim, hused, hres, hpeak⟩ := Ledger.unreserve_ok hn
  have hfit := hb.fits p account hp
  refine ⟨l, by rw [onLedger_eq, ledger_eq hp, hl], hlim, hused, hres, hpeak, ?_⟩
  unfold Ledger.Fits at hfit ⊢
  rw [hlim, hused]
  omega

/-- Other carves under way, with what is held for them. -/
theorem Inv.rehold (hp : b.accounts.get p = some account) (hlimit : l.limit = account.ledger.limit)
    (hused : l.used = account.ledger.used) (hpeak : l.peak = account.ledger.peak) (hfit : l.Fits)
    (hreserved : l.reserved.toNat = childLimits b.accounts p + carveLimits carves p)
    (hcarved : ∀ i, i ≠ p → carveLimits carves i = carveLimits b.carves i)
    (hunderway : ∀ k carve, carves.get k = some carve →
      (b.accounts.get carve.parent).isSome ∧ (b.accounts.get carve.payer).isSome) :
    Inv limit (raise high { b.setLedger p l with carves }) { b.setLedger p l with carves } := by
  have hpk := hb.peak p account hp
  refine hb.refigure hp hlimit hfit ?_ hreserved ?_ (fun _ _ => rfl) hcarved hb.owners hunderway
    fun _ _ => rfl
  · rw [hused]
    exact hb.used p account hp
  · rw [hpeak, hused, hpk.1, max_eq_left hpk.2]

omit hb

theorem carveLimits_insert (carves : Registry Carve) (carve : Carve) (i : ℕ) :
    carveLimits (carves.insert carve) i
      = carveLimits carves i + if carve.parent = i then carve.limit.toNat else 0 :=
  sum_insert _ _ _

theorem carveLimits_erase (hk : carves.get k = some carve) (i : ℕ) :
    carveLimits (carves.erase k) i + (if carve.parent = i then carve.limit.toNat else 0)
      = carveLimits carves i :=
  sum_erase hk _

include hb

theorem Inv.beginCarve
    (hp : (b.accounts.get carve.parent).isSome) (hq : (b.accounts.get carve.payer).isSome) :
    (b.beginCarve carve).Inv limit (raise high (b.beginCarve carve)) := by
  obtain ⟨account, ha⟩ := isSome_iff_exists.mp hp
  rcases carveReserve_cases ha carve.name carve.limit with
    ⟨e, he⟩ | ⟨l, hl, hlim, hused, hres, hpeak, hfit⟩
  · rw [show b.beginCarve carve = b by rw [Books.beginCarve, he]]
    exact hb.stay
  simp only [Books.beginCarve, hl, setLedger_carves]
  have hheld := hb.reserved _ account ha
  refine hb.rehold ha hlim hused hpeak hfit ?_ ?_ ?_
  · rw [carveLimits_insert, if_pos rfl]
    omega
  · intro i hi
    rw [carveLimits_insert, if_neg (Ne.symm hi), add_zero]
  · exact forall_insert ⟨hp, hq⟩ hb.underway

variable {b' : Books}

/-- **A child is born**: its limit, held for the carve, is now held for the child. -/
theorem Inv.bear (hk : b.carves.get k = some carve)
    (hc : b.charges.get c = some held) (hbytes : held.bytes = UInt64.ofNat Charges.OBJECT)
    (hr : ¬ b.IsRecord c)
    (hb' : b' = { b with
      accounts := b.accounts.insert
        ⟨carve.name, .new carve.limit, some carve.parent, carve.limit, some c⟩
      carves := b.carves.erase k }) : b'.Inv limit high := by
  subst hb'
  have hlive : ∀ i, (b.accounts.get i).isSome → ((b.accounts.insert
      ⟨carve.name, .new carve.limit, some carve.parent, carve.limit, some c⟩).get i).isSome := by
    intro i hi
    obtain ⟨account, ha⟩ := isSome_iff_exists.mp hi
    rw [get_insert_of_some ha]
    rfl
  have hchild : ∀ i, childLimits (b.accounts.insert
      ⟨carve.name, .new carve.limit, some carve.parent, carve.limit, some c⟩) i
      = childLimits b.accounts i + if carve.parent = i then carve.limit.toNat else 0 := by
    intro i
    refine (sum_insert _ _ _).trans ?_
    simp [childLimits]
  have hcarve := carveLimits_erase hk
  -- nothing can refer to the id of the child yet
  have hborn : ∀ i, (b.accounts.get i).isSome → i ≠ b.accounts.next := by
    rintro i hi rfl
    rw [b.accounts.fresh _ le_rfl] at hi
    cases hi
  have hnoCharge : chargedTo b.charges b.accounts.next = 0 :=
    sum_eq_zero fun i x hi => if_neg (hborn _ (hb.owners i x hi))
  have hnoChild : childLimits b.accounts b.accounts.next = 0 :=
    sum_eq_zero fun i x hi => if_neg fun h => hborn _ (hb.parents i x _ hi h) rfl
  have hnoCarve : carveLimits b.carves b.accounts.next = 0 :=
    sum_eq_zero fun i x hi => if_neg (hborn _ (hb.underway i x hi).1)
  refine ⟨forall_insert ?_ hb.root, ?_, Nat.succ_pos _,
    forall_insert rfl hb.limits, ?_, fun c' held' hc' => hlive _ (hb.owners c' held' hc'),
    ?_, ?_, ?_, forall_insert hnoCharge.symm hb.used, ?_,
    forall_insert (Nat.zero_le _) hb.fits, forall_insert ?_ hb.peak,
    fun i hi => hb.unborn i (Nat.le_of_succ_le hi), hb.sound⟩
  · have := hb.born
    simp only [reduceCtorEq, false_iff]
    omega
  · intro account hi
    rcases get_insert_eq_some.mp hi with ⟨h0, rfl⟩ | hi
    · have := hb.born
      omega
    · exact hb.rootLimit account hi
  · intro i account p hi hp
    rcases get_insert_eq_some.mp hi with ⟨rfl, rfl⟩ | hi
    · cases hp
      exact hlive _ (hb.underway k carve hk).1
    · exact hlive _ (hb.parents i account p hi hp)
  · intro k' carve' hk'
    have := hb.underway k' carve' (get_erase_eq_some.mp hk').2
    exact ⟨hlive _ this.1, hlive _ this.2⟩
  · intro i account c' hi hc'
    rcases get_insert_eq_some.mp hi with ⟨rfl, rfl⟩ | hi
    · cases hc'
      exact ⟨held, hc, hbytes⟩
    · exact hb.records i account c' hi hc'
  · intro i j account account' c' hi hj hci hcj
    rcases get_insert_eq_some.mp hi with ⟨rfl, rfl⟩ | hi <;>
      rcases get_insert_eq_some.mp hj with ⟨rfl, rfl⟩ | hj
    · rfl
    · cases hci
      exact absurd ⟨j, account', hj, hcj⟩ hr
    · cases hcj
      exact absurd ⟨i, account, hi, hci⟩ hr
    · exact hb.ownRecord i j account account' c' hi hj hci hcj
  · show ∀ i account, _ → _ = childLimits (b.accounts.insert _) i + carveLimits (b.carves.erase k) i
    simp only [hchild]
    refine forall_insert ?_ fun i account hi => ?_
    · have hc := hcarve b.accounts.next
      show 0 = _
      omega
    · have hc := hcarve i
      have := hb.reserved i account hi
      omega
  · rw [hb.unborn _ le_rfl]
    exact ⟨rfl, le_rfl⟩

theorem Inv.endCarve (k : ℕ) : (b.endCarve k).Inv limit (raise high (b.endCarve k)) := by
  rcases hk : b.carves.get k with _ | carve
  · rw [show b.endCarve k = b by rw [Books.endCarve, hk]]
    exact hb.stay
  obtain ⟨hp, hq⟩ := hb.underway k carve hk
  simp only [Books.endCarve, hk]
  rcases hb.newCharge hq (UInt64.ofNat Charges.OBJECT) with ⟨e, he⟩ | ⟨⟨c, hc⟩, hinv⟩
  · -- refused: the limit goes back to the parent
    obtain ⟨account, ha⟩ := isSome_iff_exists.mp hp
    have hcarve := carveLimits_erase hk
    have hheld := hb.reserved _ account ha
    have hself := hcarve carve.parent
    rw [if_pos rfl] at hself
    obtain ⟨l, hl, hlim, hused, hres, hpeak, hfit⟩ := hb.unreserve ha (n := carve.limit) (by omega)
    simp only [Books.carveRecord, he, hl]
    refine hb.rehold ha hlim hused hpeak hfit (by omega) ?_ ?_
    · intro i hi
      simpa [Ne.symm hi] using hcarve i
    · intro k' carve' hk'
      exact hb.underway k' carve' (get_erase_eq_some.mp hk').2
  · -- charged: the child is made
    obtain ⟨payer, hpayer⟩ := isSome_iff_exists.mp hq
    obtain ⟨e, he⟩ | ⟨l, hl, -⟩ := hb.charge hpayer (UInt64.ofNat Charges.OBJECT)
    · rw [Books.newCharge, he] at hc
      cases hc
    have hnew : b.newCharge carve.payer (UInt64.ofNat Charges.OBJECT) = (.ok b.charges.next,
        { b.setLedger carve.payer l with
          charges := b.charges.insert ⟨carve.payer, UInt64.ofNat Charges.OBJECT⟩ }) := by
      rw [Books.newCharge, hl]
      rfl
    rw [hnew] at hinv
    have hfresh : ¬ b.IsRecord b.charges.next := by
      rintro ⟨i, account, hi, hrec⟩
      obtain ⟨held, hheld, -⟩ := hb.records i account _ hi hrec
      rw [b.charges.fresh _ le_rfl] at hheld
      cases hheld
    simp only [Books.carveRecord, hnew]
    have hdone := hinv.bear hk (c := b.charges.next) (by simp [get_insert]; rfl) rfl
      (by
        rintro ⟨i, account, hi, hrec⟩
        obtain ⟨old, hold, rfl⟩ := get_setLedger hi
        exact hfresh ⟨i, old, hold, hrec⟩) rfl
    -- a child has nothing charged, so its birth raises nothing
    have hraise : ∀ (q : Registry Charge) (v w : Registry Carve),
        raise high ⟨(b.setLedger carve.payer l).accounts.insert ⟨carve.name, .new carve.limit,
          some carve.parent, carve.limit, some b.charges.next⟩, q, v, b.broken⟩
        = raise high ⟨(b.setLedger carve.payer l).accounts, q, w, b.broken⟩ := by
      intro q v w
      funext i
      unfold raise ledger
      simp only [get_insert]
      split
      · rename_i hi
        rw [hi, Registry.fresh _ _ le_rfl]
        rfl
      · rfl
    exact (hraise _ _ _) ▸ hdone

/-- **An account is gone**, and nothing that is left referred to it.  `led` is what
becomes of the figures of the others: the limit is given back where it was held. -/
theorem Inv.gone (ha : b.accounts.get a = some account)
    (hun : b.Unreferenced a) {accounts : Registry Account} (led : ℕ → Ledger → Ledger)
    (hnext : accounts.next = b.accounts.next)
    (hget : ∀ i, accounts.get i = if i = a then none else (b.accounts.get i).map fun acc =>
      { acc with ledger := led i acc.ledger })
    (hled : ∀ i acc, b.accounts.get i = some acc → (led i acc.ledger).limit = acc.ledger.limit ∧
      (led i acc.ledger).used = acc.ledger.used ∧ (led i acc.ledger).peak = acc.ledger.peak ∧
      (led i acc.ledger).reserved.toNat +
        (if account.parent = some i then account.limit.toNat else 0) = acc.ledger.reserved.toNat) :
    Inv limit high { b with accounts } := by
  have hold : ∀ i acc, accounts.get i = some acc → i ≠ a ∧ ∃ old, b.accounts.get i = some old ∧
      acc = { old with ledger := led i old.ledger } := by
    intro i acc hi
    rw [hget] at hi
    split at hi
    · cases hi
    · rename_i hia
      obtain ⟨old, ho, rfl⟩ := map_eq_some_iff.mp hi
      exact ⟨hia, old, ho, rfl⟩
  have hlive : ∀ i, i ≠ a → (b.accounts.get i).isSome → (accounts.get i).isSome := by
    intro i hi hs
    rw [hget, if_neg hi, isSome_map, hs]
  have hchild : ∀ i, childLimits accounts i
      + (if account.parent = some i then account.limit.toNat else 0)
      = childLimits b.accounts i := by
    intro i
    refine .trans ?_ (sum_erase ha _)
    refine congrArg₂ _ (sum_eq_of_elim hnext fun j => ?_) rfl
    rw [hget, get_erase]
    split
    · rfl
    · cases b.accounts.get j <;> rfl
  refine ⟨?_, ?_, hnext ▸ hb.born, ?_, ?_, ?_, ?_, ?_, ?_, ?_, ?_, ?_, ?_, ?_, hb.sound⟩
  · intro i acc hi
    obtain ⟨-, old, ho, rfl⟩ := hold i acc hi
    exact hb.root i old ho
  · intro acc hi
    obtain ⟨-, old, ho, rfl⟩ := hold 0 acc hi
    exact hb.rootLimit old ho
  · intro i acc hi
    obtain ⟨-, old, ho, rfl⟩ := hold i acc hi
    exact (hled i old ho).1.trans (hb.limits i old ho)
  · intro i acc p hi hp
    obtain ⟨-, old, ho, rfl⟩ := hold i acc hi
    refine hlive p ?_ (hb.parents i old p ho hp)
    rintro rfl
    exact hun.children i old ho hp
  · intro c held hc
    exact hlive _ (hun.charges c held hc) (hb.owners c held hc)
  · intro k carve hk
    obtain ⟨hp, hq⟩ := hun.carves k carve hk
    obtain ⟨hp', hq'⟩ := hb.underway k carve hk
    exact ⟨hlive _ hp hp', hlive _ hq hq'⟩
  · intro i acc c hi hc
    obtain ⟨-, old, ho, rfl⟩ := hold i acc hi
    exact hb.records i old c ho hc
  · intro i j acc acc' c hi hj hc hc'
    obtain ⟨-, old, ho, rfl⟩ := hold i acc hi
    obtain ⟨-, old', ho', rfl⟩ := hold j acc' hj
    exact hb.ownRecord i j old old' c ho ho' hc hc'
  · intro i acc hi
    obtain ⟨-, old, ho, rfl⟩ := hold i acc hi
    show (led i old.ledger).used.toNat = _
    rw [(hled i old ho).2.1]
    exact hb.used i old ho
  · intro i acc hi
    obtain ⟨-, old, ho, rfl⟩ := hold i acc hi
    have h1 := (hled i old ho).2.2.2
    have h2 := hb.reserved i old ho
    have h3 := hchild i
    show (led i old.ledger).reserved.toNat = childLimits accounts i + carveLimits b.carves i
    omega
  · intro i acc hi
    obtain ⟨-, old, ho, rfl⟩ := hold i acc hi
    obtain ⟨h1, h2, -, h4⟩ := hled i old ho
    have := hb.fits i old ho
    unfold Ledger.Fits at this ⊢
    show (led i old.ledger).used.toNat + (led i old.ledger).reserved.toNat
      ≤ (led i old.ledger).limit.toNat
    rw [h1, h2]
    omega
  · intro i acc hi
    obtain ⟨-, old, ho, rfl⟩ := hold i acc hi
    obtain ⟨-, h2, h3, -⟩ := hled i old ho
    show (led i old.ledger).peak.toNat = _ ∧ (led i old.ledger).used.toNat ≤ _
    rw [h2, h3]
    exact hb.peak i old ho
  · intro i hi
    exact hb.unborn i (hnext ▸ hi)

theorem Inv.dropAccount (hun : b.Unreferenced a) :
    (b.dropAccount a).Inv limit (raise high (b.dropAccount a)) := by
  refine .stay ?_
  rcases ha : b.accounts.get a with _ | account
  · rw [show b.dropAccount a = b by rw [Books.dropAccount, ha]]
    exact hb
  -- every charge holds its account, so none is left
  have hused : account.ledger.used = 0 := by
    rw [← UInt64.toNat_inj, hb.used a account ha]
    exact sum_eq_zero fun c held hc => if_neg (hun.charges c held hc)
  rcases hp : account.parent with _ | p
  · simp only [Books.dropAccount, ha, hused, hp, ne_eq, not_true_eq_false, if_false]
    refine hb.gone ha hun (fun _ l => l) rfl (fun i => ?_) fun i acc _ => ?_
    · rw [get_erase]
      split
      · rfl
      · cases b.accounts.get i <;> rfl
    · simp [hp]
  · obtain ⟨parent, hparent⟩ := isSome_iff_exists.mp (hb.parents a account p ha hp)
    have hle : account.limit.toNat ≤ parent.ledger.reserved.toNat := by
      have h1 := hb.reserved p parent hparent
      have h2 := le_sum ha fun _ (acc : Account) =>
        if acc.parent = some p then acc.limit.toNat else 0
      rw [if_pos hp] at h2
      unfold childLimits at h1
      omega
    obtain ⟨l, hl, hlim, hu, hres, hpeak, -⟩ := hb.unreserve hparent hle
    simp only [Books.dropAccount, ha, hused, hp, hl, ne_eq, not_true_eq_false, if_false]
    refine hb.gone ha hun (fun i old => if i = p then l else old) rfl (fun i => ?_)
      fun i acc hi => ?_
    · rw [get_erase]
      split
      · rfl
      show (b.accounts.modify p _).get i = _
      rw [get_modify]
      split
      · rfl
      · cases b.accounts.get i <;> rfl
    · rcases eq_or_ne i p with rfl | hip
      · rw [hparent] at hi
        cases hi
        simp only [if_true, hp]
        exact ⟨hlim, hu, hpeak, hres⟩
      · simp [hip, hp, Ne.symm hip]

/-- **Step lemma.** -/
theorem Inv.step (h : Step b b') : b'.Inv limit (raise high b') := by
  cases h with
  | newCharge n ha =>
    rcases hb.newCharge ha n with ⟨e, he⟩ | ⟨-, hinv⟩
    · rw [he]
      exact hb.stay
    · exact hinv
  | grow n hc hr =>
    rcases hb.grow hc hr n with ⟨e, he⟩ | hinv
    · rw [he]
      exact hb.stay
    · exact hinv
  | giveBack hc hr hn => exact hb.giveBack hc hr hn
  | dropCharge hr => exact hb.dropCharge hr
  | beginCarve hp hq => exact hb.beginCarve hp hq
  | endCarve k => exact hb.endCarve k
  | dropAccount ha => exact hb.dropAccount ha

/-- **The tree is never overcommitted.**  Each account's use is what is left of its limit
beside its children's, so over the whole tree only the machine's limit is left. -/
theorem Inv.total_used_le :
    b.accounts.sum (fun _ account => account.ledger.used.toNat) ≤ limit.toNat := by
  have hchild := sum_owners (r := b.accounts) (q := b.accounts)
    (w := fun _ account => account.limit.toNat) fun j account i hj hi =>
      hb.parents j account i hj hi
  have hfits : b.accounts.sum (fun i account =>
        account.ledger.used.toNat + childLimits b.accounts i)
      ≤ b.accounts.sum fun _ account =>
        (if account.parent.isSome then account.limit.toNat else 0)
          + if account.parent.isSome then 0 else account.limit.toNat := by
    refine sum_le_sum fun i account hi => ?_
    have h1 := hb.reserved i account hi
    have h2 := hb.fits i account hi
    unfold Ledger.Fits at h2
    rw [hb.limits i account hi] at h2
    split <;> omega
  have hroot : b.accounts.sum (fun _ account =>
      if account.parent.isSome then 0 else account.limit.toNat) ≤ limit.toNat := by
    have hle : ∀ i ∈ Finset.range b.accounts.next, (b.accounts.get i).elim 0 (fun account =>
        if account.parent.isSome then 0 else account.limit.toNat)
        ≤ if i = 0 then limit.toNat else 0 := by
      intro i _
      rcases hi : b.accounts.get i with _ | account
      · exact Nat.zero_le _
      have hr := hb.root i account hi
      rcases hp : account.parent with _ | p
      · obtain rfl : i = 0 := hr.mp hp
        simp [hp, hb.rootLimit account hi]
      · simp [hp]
    refine (Finset.sum_le_sum hle).trans ?_
    rw [Finset.sum_ite_eq']
    split <;> omega
  rw [sum_add, sum_add] at hfits
  unfold childLimits at hfits
  omega

omit hb

/-! ### Refusals -/

theorem charge_error (h : b.charge a n = (.error e, b')) : b' = b := by
  rcases eq_or_ne n 0 with rfl | hn
  · cases h
  rw [Books.charge, tryCharge, if_neg hn, onLedger_eq] at h
  rcases hf : (b.ledger a).fits n with _ | _
  · rw [Ledger.charge_refused hf, setLedger_self] at h
    exact (Prod.mk.inj h).2.symm
  · obtain ⟨l, hl, -⟩ := Ledger.charge_ok hf
    rw [hl] at h
    cases h

theorem newCharge_error (h : b.newCharge a n = (.error e, b')) : b' = b := by
  unfold Books.newCharge at h
  split at h
  · cases h
  · rename_i hc
    cases h
    exact charge_error hc

theorem grow_error (h : b.grow c n = (.error e, b')) : b' = b := by
  unfold Books.grow at h
  rcases hc : b.charges.get c with _ | held
  · rw [hc] at h
    exact (Prod.mk.inj h).2.symm
  rcases hch : b.charge held.account n with ⟨_ | _, b₁⟩
  · simp only [hc, hch] at h
    cases h
    exact charge_error hch
  · simp only [hc, hch] at h
    cases h

/-- **A refused carve changes no figure**, wherever it is refused: what the first half
held, the second gives back. -/
theorem carve_error {parent payer : ℕ} (hp : b.accounts.get parent = some account)
    {name : List UInt8} (h : b.carve parent payer name n = (.error e, b'))
    (i : ℕ) : b'.ledger i = b.ledger i := by
  unfold Books.carve at h
  rcases carveReserve_cases hp name n with ⟨e', he⟩ | ⟨l, hl, hlim, hused, hres, hpeak, -⟩
  · rw [he] at h
    cases h
    rfl
  rw [hl] at h
  simp only [carveRecord] at h
  split at h
  · rename_i e₁ b₁ hnew
    obtain rfl := newCharge_error hnew
    have hget : (b.setLedger parent l).accounts.get parent = some { account with ledger := l } := by
      rw [setLedger, get_modify, if_pos rfl, hp]
      rfl
    obtain ⟨l', hl', hlim', hused', hres', hpeak'⟩ :=
      Ledger.unreserve_ok (show n.toNat ≤ l.reserved.toNat by omega)
    rw [onLedger_eq, ledger_eq hget, hl'] at h
    cases h
    -- the figures are back: only the reservation had changed
    have hsame : l' = account.ledger := by
      cases l'
      cases hacc : account.ledger
      simp only [hacc, Ledger.mk.injEq] at *
      refine ⟨hlim'.trans hlim, hused'.trans hused, hpeak'.trans hpeak, UInt64.toNat_inj.mp ?_⟩
      omega
    unfold ledger
    simp only [setLedger, get_modify]
    split
    · rename_i hi
      subst hi
      simp [hp, hsame]
    · rfl
  · cases h

end Changes

/-! ### Runs -/

/-- The books reached from the machine's account alone, with the most each account has
had charged on the way. -/
inductive Reached (limit : UInt64) : Books → (ℕ → ℕ) → Prop where
  | machine : Reached limit (machine limit) fun _ => 0
  | step {b b' : Books} {high : ℕ → ℕ} : Reached limit b high → Step b b' →
    Reached limit b' (raise high b')

theorem Inv.machine (limit : UInt64) : Inv limit (fun _ => 0) (machine limit) := by
  have hall : ∀ P : ℕ → Account → Prop,
      P 0 ⟨"machine".toUTF8.toList, .new limit, none, limit, none⟩ →
      ∀ i account, (Books.machine limit).accounts.get i = some account → P i account :=
    fun P h => forall_insert h fun _ _ hi => by cases hi
  refine ⟨hall _ (by simp), hall (fun _ account => account.limit = limit) rfl 0, one_pos,
    hall _ rfl, fun i account p hi =>
      hall (fun _ acc => acc.parent = some p → _) nofun i account hi,
    nofun, nofun,
    fun i account c hi => hall (fun _ acc => acc.record = some c → _) nofun i account hi, ?_,
    hall _ rfl, hall _ ?_, hall _ (Nat.zero_le _), hall _ ⟨rfl, le_rfl⟩, fun _ _ => rfl, rfl⟩
  · rintro i j account account' c hi hj - -
    exact (hall (fun i _ => i = 0) rfl i account hi).trans
      (hall (fun i _ => i = 0) rfl j account' hj).symm
  · simp [Ledger.new, childLimits, carveLimits, Books.machine, sum_insert]

/-- **Run lemma.** -/
theorem reached_inv {limit : UInt64} {b : Books} {high : ℕ → ℕ} (h : Reached limit b high) :
    b.Inv limit high := by
  induction h with
  | machine => exact .machine limit
  | step _ hstep ih => exact ih.step hstep

structure Balanced (limit : UInt64) (high : ℕ → ℕ) (b : Books) : Prop where
  fits : ∀ a account, b.accounts.get a = some account →
    account.ledger.used.toNat + account.ledger.reserved.toNat ≤ account.limit.toNat
  reserved : ∀ a account, b.accounts.get a = some account →
    account.ledger.reserved.toNat = childLimits b.accounts a + carveLimits b.carves a
  used : ∀ a account, b.accounts.get a = some account →
    account.ledger.used.toNat = chargedTo b.charges a
  records : ∀ a account c, b.accounts.get a = some account → account.record = some c →
    (∃ held, b.charges.get c = some held ∧ held.bytes = UInt64.ofNat Charges.OBJECT) ∧
    ∀ a' account', b.accounts.get a' = some account' → account'.record = some c → a' = a
  total : b.accounts.sum (fun _ account => account.ledger.used.toNat) ≤ limit.toNat
  peak : ∀ a account, b.accounts.get a = some account → account.ledger.peak.toNat = high a
  chargeRefused : ∀ a n e b', b.newCharge a n = (.error e, b') → b' = b
  growRefused : ∀ c n e b', b.grow c n = (.error e, b') → b' = b
  carveRefused : ∀ parent payer name n e b', (b.accounts.get parent).isSome →
    b.carve parent payer name n = (.error e, b') → ∀ i, b'.ledger i = b.ledger i
  unbroken : b.broken = false

/-- **Memory accounts never overcommit**, in any interleaving of carves, charges and the
drops the reference counts allow, with refusals anywhere. -/
theorem reached_balanced {limit : UInt64} {b : Books} {high : ℕ → ℕ}
    (h : Reached limit b high) : b.Balanced limit high := by
  have hb := reached_inv h
  refine ⟨?_, hb.reserved, hb.used, ?_, hb.total_used_le, fun a account ha =>
    (hb.peak a account ha).1, fun _ _ _ _ => newCharge_error, fun _ _ _ _ => grow_error, ?_,
    hb.sound⟩
  · intro a account ha
    have := hb.fits a account ha
    rwa [Ledger.Fits, hb.limits a account ha] at this
  · intro a account c ha hc
    exact ⟨hb.records a account c ha hc, fun a' account' ha' hc' =>
      hb.ownRecord a' a account' account c ha' ha hc' hc⟩
  · intro parent payer name n e b' hp herr
    obtain ⟨account, hacc⟩ := isSome_iff_exists.mp hp
    exact carve_error hacc herr

/-- Two pages carved out of sixteen, and one of them charged. -/
def sampleBooks : Books :=
  ((((machine 65536).beginCarve ⟨0, 0, [97], 8192⟩).endCarve 0).newCharge 1 4096).2

theorem reached_balanced_sample :
    ∃ high, Reached 65536 sampleBooks high ∧ sampleBooks.Balanced 65536 high ∧
      sampleBooks.ledger 0 = ⟨65536, 256, 256, 8192⟩ ∧
      sampleBooks.ledger 1 = ⟨8192, 4096, 4096, 0⟩ := by
  have h : Reached 65536 sampleBooks _ :=
    ((Reached.machine.step (.beginCarve (by decide) (by decide))).step (.endCarve 0)).step
      (.newCharge 4096 (by decide))
  exact ⟨_, h, reached_balanced h, by decide, by decide⟩

end Books

end Moruna.Kernel

/-
Moruna/Net/Policy.lean

Network policies (`net/protocol/src/policy.rs`, `types.rs`): what a policy
permits, and the test by which one policy covers another.

The test is syntactic, rule by rule: a rule of the child must lie inside one
rule of the parent.  Each kind of rule therefore owes the same three facts, and
`coversAll` lifts them to lists of rules once:

* what a covered rule permits, the covering rule permits (`Cidr.contains_of_covers`,
  `Rule.permits_of_covers`, `NameRule.permits_of_covers`);
* covering is reflexive and transitive.

For networks all three rest on the masks being nested (`mask_and_mask`); for
wildcard names on `Below.trans`.  `covers_narrows`,
`covers_refl` and `covers_trans` put them together for policies; none of them
needs the policies to be validated.
-/
import Mathlib.Data.BitVec
import Moruna.Lib.Checks

namespace Moruna.Net

open List

/-! ### Addresses, networks and rules -/

inductive Addr where
  | v4 (a : BitVec 32)
  | v6 (a : BitVec 128)
  deriving DecidableEq

def Addr.isV4 : Addr → Bool
  | .v4 _ => true
  | .v6 _ => false

def Addr.bits (a : Addr) : ℕ := if a.isV4 then 32 else 128

/-- The address as a 128-bit number, an IPv4 address in the low 32 bits. -/
def Addr.value : Addr → BitVec 128
  | .v4 a => a.setWidth 128
  | .v6 a => a

/-- Not unspecified, multicast or the IPv4 broadcast address. -/
def Addr.isHost : Addr → Bool
  | .v4 a => a != 0 && a >>> 28 != 0xE && a != BitVec.allOnes 32
  | .v6 a => a != 0 && a >>> 120 != 0xFF

structure Endpoint where
  addr : Addr
  port : ℕ
  deriving DecidableEq

/-- `Cidr`; `len` is the source's prefix length. -/
structure Cidr where
  addr : Addr
  len : ℕ
  deriving DecidableEq

/-- The top `min len bits` bits of a `bits`-wide number. -/
def mask (bits len : ℕ) : BitVec 128 :=
  let p := min len bits
  if p = 0 then 0
  else (if p = 128 then BitVec.allOnes 128 else (1#128 <<< p) - 1) <<< (bits - p)

def Cidr.mask (c : Cidr) : BitVec 128 := Net.mask c.addr.bits c.len

def Cidr.contains (c : Cidr) (a : Addr) : Bool :=
  a.isV4 == c.addr.isV4 && a.value &&& c.mask == c.addr.value &&& c.mask

def Cidr.covers (c other : Cidr) : Bool := decide (c.len ≤ other.len) && c.contains other.addr

/-- `Rule`: a network and the ports `first` to `last`. -/
structure Rule where
  net : Cidr
  first : ℕ
  last : ℕ
  deriving DecidableEq

def Rule.permits (r : Rule) (e : Endpoint) : Bool :=
  r.net.contains e.addr && decide (r.first ≤ e.port ∧ e.port ≤ r.last)

def Rule.covers (r other : Rule) : Bool :=
  r.net.covers other.net && decide (r.first ≤ other.first) && decide (other.last ≤ r.last)

/-! ### Names -/

/-- A name or pattern, by its bytes. -/
abbrev Name := List UInt8

/-- `strip_prefix("*.")`. -/
def stripStar : Name → Option Name
  | 42 :: 46 :: domain => some domain
  | _ => none

/-- `name_matches`: the same name, or for `*.domain` any name below `domain`. -/
def nameMatches (pattern name : Name) : Bool :=
  match stripStar pattern with
  | some domain =>
      decide (domain.length + 1 < name.length) && domain.isSuffixOf name
        && name[name.length - domain.length - 1]? == some 46
  | none => pattern == name

def patternCovers (parent child : Name) : Bool :=
  match stripStar parent, stripStar child with
  | _, none => nameMatches parent child
  | some p, some c => c == p || nameMatches parent c
  | none, some _ => false

structure NameRule where
  pattern : Name
  first : ℕ
  last : ℕ
  deriving DecidableEq

def NameRule.permits (r : NameRule) (name : Name) (port : Option ℕ) : Bool :=
  nameMatches r.pattern name && port.all fun p => decide (r.first ≤ p ∧ p ≤ r.last)

def NameRule.covers (r other : NameRule) : Bool :=
  patternCovers r.pattern other.pattern && decide (r.first ≤ other.first)
    && decide (other.last ≤ r.last)

def nameMax : ℕ := 253

/-- A label of a host name: 1 to 63 lowercase letters, digits, hyphens and underscores,
no hyphen at either end. -/
def labelValid (b : Name) : Bool :=
  b != [] && decide (b.length ≤ 63) && b.head? != some 45 && b.getLast? != some 45
    && b.all fun c => (97 ≤ c && c ≤ 122) || (48 ≤ c && c ≤ 57) || c == 45 || c == 95

def nameValid (name : Name) : Bool :=
  name != [] && decide (name.length ≤ nameMax) && (name.splitOn 46).all labelValid

def patternValid (pattern : Name) : Bool := nameValid ((stripStar pattern).getD pattern)

/-! ### Policies -/

abbrev Rights := BitVec 32

def connectRight : Rights := 1 <<< 0
def listenRight : Rights := 1 <<< 1
def udpRight : Rights := 1 <<< 2
def pingRight : Rights := 1 <<< 3
def resolveRight : Rights := 1 <<< 4
def grantRight : Rights := 1 <<< 5
def allRights : Rights := (1 <<< 6) - 1

structure Policy where
  rights : Rights
  remote : List Rule
  «local» : List Rule
  names : List NameRule
  sockets : ℕ
  deriving DecidableEq

/-- The errors of the requests modelled (`net::Error`). -/
inductive Error where
  | badPolicy | badArgument | badAddress | notPermitted | addressInUse | tooMany
  | noSocket | wrongKind
  deriving DecidableEq

def rulesMax : ℕ := 64

def rulesOk (rules : List Rule) : Bool :=
  decide (rules.length ≤ rulesMax)
    && rules.all fun r => decide (r.first ≤ r.last ∧ r.net.len ≤ r.net.addr.bits)

def namesOk (names : List NameRule) : Bool :=
  decide (names.length ≤ rulesMax)
    && names.all fun n =>
      decide (n.first ≤ n.last ∧ n.pattern.length ≤ nameMax) && patternValid n.pattern

namespace Policy

variable (p : Policy)

def validate : Except Error Unit :=
  rejectIf (p.rights &&& ~~~allRights ≠ 0 ∨ ¬ rulesOk p.remote ∨ ¬ rulesOk p.local
    ∨ ¬ namesOk p.names) .badPolicy

def has (right : Rights) : Bool := p.rights &&& right == right

def mayConnect (dst : Endpoint) : Bool := p.has connectRight && p.remote.any (·.permits dst)

def mayConnectName (name : Name) (port : ℕ) : Bool :=
  p.has connectRight && p.names.any (·.permits name (some port))

def maySendTo (dst : Endpoint) : Bool := p.has udpRight && p.remote.any (·.permits dst)

def mayPing (dst : Addr) : Bool := p.has pingRight && p.remote.any (·.net.contains dst)

def mayResolve (name : Name) : Bool := p.has resolveRight || p.names.any (·.permits name none)

def mayListen (e : Endpoint) : Bool := p.has listenRight && p.local.any (·.permits e)

def mayBind (e : Endpoint) : Bool := p.has udpRight && p.local.any (·.permits e)

def mayUseSource (a : Addr) : Bool := p.local.any (·.net.contains a)

def localRulesFor (a : Addr) : List Rule := p.local.filter (·.net.contains a)

end Policy

/-- Every rule of the child lies inside one rule of the parent. -/
def coversAll {α : Type} (covers : α → α → Bool) (parent child : List α) : Bool :=
  child.all fun c => parent.any fun p => covers p c

def Policy.covers (p child : Policy) : Bool :=
  child.rights &&& ~~~p.rights == 0 && decide (child.sockets ≤ p.sockets)
    && coversAll Rule.covers p.remote child.remote
    && coversAll Rule.covers p.local child.local
    && coversAll NameRule.covers p.names child.names

/-! ### Lists of rules -/

section Lists

variable {α : Type} {covers : α → α → Bool} {ps qs rs : List α}

theorem any_of_coversAll {permits : α → Bool} (h : coversAll covers ps qs)
    (hc : ∀ p q, covers p q → permits q → permits p) : qs.any permits → ps.any permits := by
  simp only [coversAll, all_eq_true, any_eq_true] at h ⊢
  rintro ⟨q, hq, hperm⟩
  obtain ⟨p, hp, hcov⟩ := h q hq
  exact ⟨p, hp, hc p q hcov hperm⟩

theorem coversAll_refl (hc : ∀ p, covers p p) (ps : List α) : coversAll covers ps ps := by
  simp only [coversAll, all_eq_true, any_eq_true]
  exact fun p hp => ⟨p, hp, hc p⟩

theorem coversAll_trans (hc : ∀ p q r, covers p q → covers q r → covers p r)
    (h : coversAll covers ps qs) (h' : coversAll covers qs rs) : coversAll covers ps rs := by
  simp only [coversAll, all_eq_true, any_eq_true] at *
  intro r hr
  obtain ⟨q, hq, hqr⟩ := h' r hr
  obtain ⟨p, hp, hpq⟩ := h q hq
  exact ⟨p, hp, hc p q r hpq hqr⟩

end Lists

/-! ### Networks -/

variable {bits : ℕ} {c d : Cidr} {a : Addr} {name p : Name}

/-- Bit `i` of a mask: the top `min len bits` of the low `bits` bits. -/
theorem getLsbD_mask (hb : bits ≤ 128) (len i : ℕ) :
    (mask bits len).getLsbD i = decide (bits - min len bits ≤ i ∧ i < bits) := by
  unfold mask
  dsimp only
  split_ifs with h0 h1
  · simp only [BitVec.ofNat_eq_ofNat, BitVec.getLsbD_zero]
    symm
    simp only [decide_eq_false_iff_not]
    omega
  · simp only [BitVec.getLsbD_shiftLeft, BitVec.getLsbD_allOnes]
    grind
  · have hp : min len bits < 128 := by omega
    have hnat : ((1#128 <<< min len bits) - 1#128).toNat = 2 ^ min len bits - 1 := by
      have hlt : 2 ^ min len bits < 2 ^ 128 := Nat.pow_lt_pow_right (by decide) hp
      have hpos : 0 < 2 ^ min len bits := Nat.two_pow_pos _
      rw [BitVec.toNat_sub, BitVec.toNat_shiftLeft, BitVec.toNat_ofNat]
      omega
    simp only [BitVec.getLsbD_shiftLeft, BitVec.ofNat_eq_ofNat]
    rw [BitVec.getLsbD]
    grind

/-- **The masks are nested**: a shorter prefix keeps no bit that a longer one drops. -/
theorem mask_and_mask {len len' : ℕ} (hb : bits ≤ 128) (h : len ≤ len') :
    mask bits len' &&& mask bits len = mask bits len := by
  apply BitVec.eq_of_getLsbD_eq
  intro i _
  rw [BitVec.getLsbD_and, getLsbD_mask hb, getLsbD_mask hb]
  grind

theorem Addr.bits_le (a : Addr) : a.bits ≤ 128 := by
  unfold Addr.bits
  split <;> omega

theorem Cidr.contains_eq :
    c.contains a ↔ a.isV4 = c.addr.isV4 ∧ a.value &&& c.mask = c.addr.value &&& c.mask := by
  simp [Cidr.contains]

theorem Cidr.covers_eq : c.covers d ↔ c.len ≤ d.len ∧ c.contains d.addr := by
  simp [Cidr.covers]

/-- Every address of a covered network lies in the covering one. -/
theorem Cidr.contains_of_covers (c d : Cidr) (h : c.covers d) (ha : d.contains a) :
    c.contains a := by
  obtain ⟨hlen, hc⟩ := Cidr.covers_eq.mp h
  obtain ⟨hfam, hval⟩ := Cidr.contains_eq.mp hc
  obtain ⟨hfam', hval'⟩ := Cidr.contains_eq.mp ha
  have hnest : d.mask &&& c.mask = c.mask := by
    have hbits : d.addr.bits = c.addr.bits := by simp only [Addr.bits, hfam]
    simp only [Cidr.mask, hbits]
    exact mask_and_mask (Addr.bits_le _) hlen
  refine Cidr.contains_eq.mpr ⟨hfam'.trans hfam, ?_⟩
  calc a.value &&& c.mask = a.value &&& d.mask &&& c.mask := by rw [BitVec.and_assoc, hnest]
    _ = d.addr.value &&& c.mask := by rw [hval', BitVec.and_assoc, hnest]
    _ = c.addr.value &&& c.mask := hval

theorem Cidr.covers_refl (c : Cidr) : c.covers c := by simp [Cidr.covers, Cidr.contains]

theorem Cidr.covers_trans {e : Cidr} (h : c.covers d) (h' : d.covers e) : c.covers e := by
  obtain ⟨hlen', hcon'⟩ := Cidr.covers_eq.mp h'
  exact Cidr.covers_eq.mpr
    ⟨(Cidr.covers_eq.mp h).1.trans hlen', Cidr.contains_of_covers c d h hcon'⟩

theorem Rule.covers_eq {r s : Rule} :
    r.covers s ↔ r.net.covers s.net ∧ r.first ≤ s.first ∧ s.last ≤ r.last := by
  simp [Rule.covers, and_assoc]

theorem Rule.contains_of_covers (r s : Rule) (h : r.covers s)
    (hs : s.net.contains a) : r.net.contains a :=
  Cidr.contains_of_covers _ _ (Rule.covers_eq.mp h).1 hs

theorem Rule.permits_of_covers {e : Endpoint} (r s : Rule) (h : r.covers s) (hs : s.permits e) :
    r.permits e := by
  obtain ⟨_, hfirst, hlast⟩ := Rule.covers_eq.mp h
  simp only [Rule.permits, Bool.and_eq_true, decide_eq_true_eq] at hs ⊢
  exact ⟨Rule.contains_of_covers r s h hs.1, hfirst.trans hs.2.1, hs.2.2.trans hlast⟩

theorem Rule.covers_refl (r : Rule) : r.covers r := by simp [Rule.covers, Cidr.covers_refl]

theorem Rule.covers_trans (r s t : Rule) (h : r.covers s) (h' : s.covers t) : r.covers t := by
  obtain ⟨hn, hf, hl⟩ := Rule.covers_eq.mp h
  obtain ⟨hn', hf', hl'⟩ := Rule.covers_eq.mp h'
  exact Rule.covers_eq.mpr ⟨Cidr.covers_trans hn hn', hf.trans hf', hl'.trans hl⟩

/-! ### Names -/

def Below (name domain : Name) : Prop := ∃ x : Name, x ≠ [] ∧ name = x ++ 46 :: domain

theorem Below.trans {a b c : Name} (h : Below a b) (h' : Below b c) : Below a c := by
  obtain ⟨x, hx, rfl⟩ := h
  obtain ⟨y, _, rfl⟩ := h'
  exact ⟨x ++ 46 :: y, by simp [hx], by simp⟩

/-- A wildcard matches the names below its domain, any other pattern itself. -/
theorem nameMatches_iff {pattern : Name} :
    nameMatches pattern name ↔ match stripStar pattern with
      | some domain => Below name domain
      | none => pattern = name := by
  unfold nameMatches
  rcases stripStar pattern with _ | domain
  · simp
  simp only [Bool.and_eq_true, decide_eq_true_eq, isSuffixOf_iff_suffix, beq_iff_eq]
  constructor
  · rintro ⟨⟨hlen, t, rfl⟩, hdot⟩
    -- the byte before the domain is the last of what stands before it
    rcases eq_nil_or_concat t with rfl | ⟨x, c, rfl⟩
    · simp at hlen
    have hidx : (x.concat c ++ domain).length - domain.length - 1 = x.length := by
      simp only [length_append, length_concat]
      omega
    rw [hidx] at hdot
    simp only [concat_eq_append, append_assoc, singleton_append, le_refl,
      getElem?_append_right, tsub_self, getElem?_cons_zero, Option.some.injEq] at hdot
    refine ⟨x, ?_, by simp [hdot]⟩
    rintro rfl
    simp at hlen
  · rintro ⟨x, hx, rfl⟩
    have hpos := length_pos_of_ne_nil hx
    have hidx : (x ++ 46 :: domain).length - domain.length - 1 = x.length := by
      simp only [length_append, length_cons]
      omega
    refine ⟨⟨?_, x ++ [46], by simp⟩, by rw [hidx]; simp⟩
    omega

/-- A pattern that covers another is the other or covers its names by one more wildcard. -/
theorem patternCovers_iff {c : Name} : patternCovers p c ↔ match stripStar p, stripStar c with
      | some d, some d' => d' = d ∨ Below d' d
      | some d, none => Below c d
      | none, some _ => False
      | none, none => p = c := by
  unfold patternCovers
  rcases hp : stripStar p with _ | d <;> rcases hc : stripStar c with _ | d' <;>
    simp [nameMatches_iff, hp]

theorem nameMatches_of_patternCovers {c : Name} (h : patternCovers p c)
    (hc : nameMatches c name) : nameMatches p name := by
  rw [patternCovers_iff] at h
  rw [nameMatches_iff] at hc ⊢
  rcases hp : stripStar p with _ | d <;> rcases hs : stripStar c with _ | d' <;>
    simp only [hp, hs] at h hc ⊢
  · exact h.trans hc
  · exact hc ▸ h
  · rcases h with rfl | h
    · exact hc
    · exact hc.trans h

theorem patternCovers_refl (p : Name) : patternCovers p p := by
  rw [patternCovers_iff]
  rcases stripStar p with _ | d <;> simp

theorem patternCovers_trans {q r : Name} (h : patternCovers p q) (h' : patternCovers q r) :
    patternCovers p r := by
  rw [patternCovers_iff] at h h' ⊢
  rcases hp : stripStar p with _ | d <;> rcases hq : stripStar q with _ | d' <;>
    rcases hr : stripStar r with _ | d'' <;> simp only [hp, hq, hr] at h h' ⊢
  · exact h.trans h'
  · exact h' ▸ h
  · rcases h with rfl | h
    · exact h'
    · exact h'.trans h
  · rcases h with rfl | h <;> rcases h' with rfl | h'
    · exact .inl rfl
    · exact .inr h'
    · exact .inr h
    · exact .inr (h'.trans h)

theorem NameRule.covers_eq {r s : NameRule} :
    r.covers s ↔ patternCovers r.pattern s.pattern ∧ r.first ≤ s.first ∧ s.last ≤ r.last := by
  simp [NameRule.covers, and_assoc]

theorem NameRule.permits_of_covers {port : Option ℕ} (r s : NameRule)
    (h : r.covers s) (hs : s.permits name port) : r.permits name port := by
  obtain ⟨hpat, hfirst, hlast⟩ := NameRule.covers_eq.mp h
  simp only [NameRule.permits, Bool.and_eq_true] at hs ⊢
  refine ⟨nameMatches_of_patternCovers hpat hs.1, ?_⟩
  rcases port with _ | p
  · rfl
  · simp only [Option.all_some, decide_eq_true_eq] at hs ⊢
    exact ⟨hfirst.trans hs.2.1, hs.2.2.trans hlast⟩

theorem NameRule.covers_trans (r s t : NameRule) (h : r.covers s) (h' : s.covers t) :
    r.covers t := by
  obtain ⟨hn, hf, hl⟩ := NameRule.covers_eq.mp h
  obtain ⟨hn', hf', hl'⟩ := NameRule.covers_eq.mp h'
  exact NameRule.covers_eq.mpr ⟨patternCovers_trans hn hn', hf.trans hf', hl'.trans hl⟩

/-! ### Policies -/

namespace Policy

/-- Whatever `c` permits, `p` permits. -/
structure Narrows (c p : Policy) : Prop where
  sockets : c.sockets ≤ p.sockets
  has : ∀ right, c.has right → p.has right
  connect : ∀ e, c.mayConnect e → p.mayConnect e
  connectName : ∀ name port, c.mayConnectName name port → p.mayConnectName name port
  sendTo : ∀ e, c.maySendTo e → p.maySendTo e
  ping : ∀ a, c.mayPing a → p.mayPing a
  resolve : ∀ name, c.mayResolve name → p.mayResolve name
  listen : ∀ e, c.mayListen e → p.mayListen e
  bind : ∀ e, c.mayBind e → p.mayBind e
  source : ∀ a, c.mayUseSource a → p.mayUseSource a

variable {c p : Policy} {a b : Rights}

theorem covers_eq : p.covers c ↔ c.rights &&& ~~~p.rights = 0 ∧ c.sockets ≤ p.sockets
      ∧ coversAll Rule.covers p.remote c.remote ∧ coversAll Rule.covers p.local c.local
      ∧ coversAll NameRule.covers p.names c.names := by
  simp [covers, and_assoc]

/-- No right outside `p`'s, bit by bit. -/
theorem rights_subset (h : a &&& ~~~b = 0) {i : ℕ} (hi : a.getLsbD i) :
    b.getLsbD i := by
  have hlt : i < 32 := BitVec.lt_of_getLsbD hi
  have hbit := congrArg (BitVec.getLsbD · i) h
  simpa [hi, hlt] using hbit

theorem rights_subset_trans {c : Rights} (h : a &&& ~~~b = 0) (h' : b &&& ~~~c = 0) :
    a &&& ~~~c = 0 := by
  apply BitVec.eq_of_getLsbD_eq
  intro i hi
  have hsub : a.getLsbD i → c.getLsbD i := fun ha => rights_subset h' (rights_subset h ha)
  simpa [hi] using hsub

theorem has_of_subset (h : c.rights &&& ~~~p.rights = 0) {right : Rights}
    (hc : c.has right) : p.has right := by
  simp only [has, beq_iff_eq] at hc ⊢
  apply BitVec.eq_of_getLsbD_eq
  intro i _
  have hsub := @rights_subset c.rights p.rights h i
  grind

/-- **Coverage is containment**: a covered policy permits nothing the covering one does not. -/
theorem covers_narrows (h : p.covers c) : Narrows c p := by
  obtain ⟨hrights, hsockets, hremote, hlocal, hnames⟩ := covers_eq.mp h
  have hhas : ∀ right, c.has right → p.has right := fun _ => has_of_subset hrights
  have hrem (e : Endpoint) := any_of_coversAll hremote (@Rule.permits_of_covers e)
  have hloc (e : Endpoint) := any_of_coversAll hlocal (@Rule.permits_of_covers e)
  have hname (n : Name) (q : Option ℕ) := any_of_coversAll hnames (@NameRule.permits_of_covers n q)
  -- every operation is a right and a rule of one list
  have both {a b a' b' : Bool} (h₁ : a → a') (h₂ : b → b') : (a && b) → (a' && b') := by
    simp only [Bool.and_eq_true]
    exact .imp h₁ h₂
  exact {
    sockets := hsockets
    has := hhas
    connect := fun e => both (hhas _) (hrem e)
    connectName := fun n q => both (hhas _) (hname n (some q))
    sendTo := fun e => both (hhas _) (hrem e)
    ping := fun a => both (hhas _) (any_of_coversAll hremote (@Rule.contains_of_covers a))
    resolve := by
      intro n
      simp only [mayResolve, Bool.or_eq_true]
      exact .imp (hhas _) (hname n none)
    listen := fun e => both (hhas _) (hloc e)
    bind := fun e => both (hhas _) (hloc e)
    source := fun a => any_of_coversAll hlocal (@Rule.contains_of_covers a) }

theorem covers_refl (p : Policy) : p.covers p := by
  refine covers_eq.mpr ⟨by simp, le_rfl, coversAll_refl Rule.covers_refl _,
    coversAll_refl Rule.covers_refl _, coversAll_refl (fun r => ?_) _⟩
  simp [NameRule.covers, patternCovers_refl]

theorem covers_trans {q r : Policy} (h : p.covers q) (h' : q.covers r) : p.covers r := by
  obtain ⟨hrights, hsockets, hremote, hlocal, hnames⟩ := covers_eq.mp h
  obtain ⟨hrights', hsockets', hremote', hlocal', hnames'⟩ := covers_eq.mp h'
  exact covers_eq.mpr ⟨rights_subset_trans hrights' hrights, hsockets'.trans hsockets,
    coversAll_trans Rule.covers_trans hremote hremote',
    coversAll_trans Rule.covers_trans hlocal hlocal',
    coversAll_trans NameRule.covers_trans hnames hnames'⟩

end Policy

end Moruna.Net

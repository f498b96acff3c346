import KickOS.ByteRing.Model

/-! What the consumer removes is what the producer was taken, in order, whatever the two sides' steps interleave to.

The proof counts the bytes: `accepted` and `removed` are as long as the indices would be if they did not wrap. -/

namespace KickOS.ByteRing

variable {k H T n : Nat} {x y : St} {mask head tail idx : BitVec 32}

/-! ### Indices -/

theorem toNat_and_mask (hm : mask.toNat = 2 ^ k - 1) (a : BitVec 32) : (a &&& mask).toNat = a.toNat % 2 ^ k := by
  rw [BitVec.toNat_and, hm, Nat.and_two_pow_sub_one_eq_mod]

theorem mod_mod (hk : k < 32) (a : Nat) : a % 2 ^ 32 % 2 ^ k = a % 2 ^ k := Nat.mod_mod_of_dvd _ (Nat.pow_dvd_pow 2 hk.le)

theorem toNat_add_and (hk : k < 32) (hm : mask.toNat = 2 ^ k - 1) (hi : idx.toNat = n % 2 ^ k) (m : BitVec 32) :
    ((idx + m) &&& mask).toNat = (n + m.toNat) % 2 ^ k := by
  rw [toNat_and_mask hm, BitVec.toNat_add, mod_mod hk, hi, Nat.mod_add_mod]

theorem toNat_usedOf (hk : k < 32) (hm : mask.toNat = 2 ^ k - 1) (hh : head.toNat = H % 2 ^ k) (ht : tail.toNat = T % 2 ^ k)
    (hle : T ≤ H) (hlt : H < T + 2 ^ k) : (usedOf mask head tail).toNat = H - T := by
  obtain ⟨z, hz⟩ : ∃ z, z = 2 ^ 32 - tail.toNat + head.toNat := ⟨_, rfl⟩
  have htail := tail.isLt
  have hdvd : 2 ^ k ∣ 2 ^ 32 := Nat.pow_dvd_pow 2 hk.le
  -- the difference of the indices and the tail make the head, up to whole turns
  have hsum : z + T ≡ H - T + T [MOD 2 ^ k] := by
    have h1 : z + tail.toNat = 2 ^ 32 + head.toNat := by omega
    have h2 : tail.toNat ≡ T [MOD 2 ^ k] := by rw [ht]; exact Nat.mod_modEq ..
    have h3 : head.toNat ≡ H [MOD 2 ^ k] := by rw [hh]; exact Nat.mod_modEq ..
    have h4 : 2 ^ 32 + head.toNat ≡ head.toNat [MOD 2 ^ k] := by
      have : 2 ^ 32 ≡ 0 [MOD 2 ^ k] := (Nat.modEq_zero_iff_dvd).2 hdvd
      simpa using this.add_right head.toNat
    rw [Nat.sub_add_cancel hle]
    calc z + T ≡ z + tail.toNat [MOD 2 ^ k] := (h2.symm).add_left z
      _ = 2 ^ 32 + head.toNat := h1
      _ ≡ head.toNat [MOD 2 ^ k] := h4
      _ ≡ H [MOD 2 ^ k] := h3
  have hmod : z % 2 ^ k = (H - T) % 2 ^ k := hsum.add_right_cancel' T
  unfold usedOf
  rw [toNat_and_mask hm, BitVec.toNat_sub, mod_mod hk, ← hz, hmod]
  exact Nat.mod_eq_of_lt (by omega)

theorem mod_ne_of_lt {a b : Nat} (h1 : a < b) (h2 : b < a + 2 ^ k) : a % 2 ^ k ≠ b % 2 ^ k := by
  intro h
  have hdvd : 2 ^ k ∣ b - a := (Nat.modEq_iff_dvd' h1.le).1 h
  exact absurd (Nat.le_of_dvd (by omega) hdvd) (by omega)

theorem toNat_clamp (n most : BitVec 32) : (clamp n most).toNat = min n.toNat most.toNat := by
  unfold clamp
  split
  next h => exact (Nat.min_eq_right (BitVec.lt_def.1 h).le).symm
  next h => exact (Nat.min_eq_left (BitVec.le_def.1 (BitVec.not_lt.1 h))).symm

/-! ### The invariant -/

/-- A push takes all of its bytes that the room it saw has place for. -/
def Push.Ok (p : Push) : Prop := p.took = p.src.take p.seen

/-- Its bytes have place behind those that were accepted. -/
structure Fits (k : Nat) (x : St) (p : Push) : Prop where
  ok : p.Ok
  room : x.accepted.length + p.took.length < x.removed.length + 2 ^ k

def Producer.Ok (k : Nat) (x : St) : Producer → Prop
  | .idle => True
  | .head src => src.length < 2 ^ 32
  | .tail src head => src.length < 2 ^ 32 ∧ head = x.ring.head
  | .index p => Fits k x p
  | .store p idx done =>
    Fits k x p ∧ done ≤ p.took.length ∧ idx.toNat = (x.accepted.length + done) % 2 ^ k ∧
      ∀ i < done, p.took[i]? = some (x.ring.buf ((x.accepted.length + i) % 2 ^ k))

def Consumer.Ok (k : Nat) (x : St) : Consumer → Prop
  | .idle => True
  | .head _ => True
  | .tail _ head => ∃ H, x.removed.length ≤ H ∧ H ≤ x.accepted.length ∧ head.toNat = H % 2 ^ k
  | .index _ n => x.removed.length + n.toNat ≤ x.accepted.length
  | .load _ n idx got =>
    x.removed.length + n.toNat ≤ x.accepted.length ∧ got.length ≤ n.toNat ∧ idx.toNat = (x.removed.length + got.length) % 2 ^ k ∧
      got <+: x.accepted.drop x.removed.length
  | .drop n tail => x.removed.length + n.toNat ≤ x.accepted.length ∧ tail = x.ring.tail

structure Inv (k : Nat) (x : St) : Prop where
  mask : x.ring.mask.toNat = 2 ^ k - 1
  size : x.ring.size = 0 → k = 0
  removed : x.removed <+: x.accepted
  fits : x.accepted.length < x.removed.length + 2 ^ k
  head : x.ring.head.toNat = x.accepted.length % 2 ^ k
  tail : x.ring.tail.toNat = x.removed.length % 2 ^ k
  buf : ∀ j, x.removed.length ≤ j → j < x.accepted.length → x.accepted[j]? = some (x.ring.buf (j % 2 ^ k))
  producer : x.producer.Ok k x
  consumer : x.consumer.Ok k x
  pushes : ∀ p ∈ x.pushes, p.Ok

theorem Inv.le (h : Inv k x) : x.removed.length ≤ x.accepted.length := h.removed.length_le

theorem Inv.used (h : Inv k x) (hk : k < 32) :
    (usedOf x.ring.mask x.ring.head x.ring.tail).toNat = x.accepted.length - x.removed.length :=
  toNat_usedOf hk h.mask h.head h.tail h.le h.fits

theorem Inv.held_eq (h : Inv k x) (hk : k < 32) : x.held = x.accepted.drop x.removed.length := by
  refine List.ext_getElem? fun i => ?_
  unfold St.held
  rw [h.used hk, List.getElem?_drop, List.getElem?_map]
  rcases Nat.lt_or_ge i (x.accepted.length - x.removed.length) with hi | hi
  · have hpow : 2 ^ k ≤ 2 ^ 31 := Nat.pow_le_pow_right Nat.two_pos (by omega)
    have hfits := h.fits
    have hnat : (BitVec.ofNat 32 i).toNat = i := by
      rw [BitVec.toNat_ofNat]
      exact Nat.mod_eq_of_lt (by omega)
    rw [List.getElem?_range hi, Option.map_some, toNat_add_and hk h.mask h.tail, hnat]
    exact (h.buf _ (Nat.le_add_right ..) (by omega)).symm
  · rw [List.getElem?_eq_none (by rw [List.length_range]; exact hi), Option.map_none,
      List.getElem?_eq_none (by omega)]

/-! ### Steps -/

theorem Consumer.Ok.grow {c : Consumer} (h : c.Ok k x) {l : List UInt8} (ha : y.accepted = x.accepted ++ l)
    (hr : y.removed = x.removed) (ht : y.ring.tail = x.ring.tail) (hle : x.removed.length ≤ x.accepted.length) : c.Ok k y := by
  have hlen : x.accepted.length ≤ y.accepted.length := by
    rw [ha, List.length_append]
    exact Nat.le_add_right ..
  cases c with
  | idle => trivial
  | head op => trivial
  | tail op head =>
    obtain ⟨H, h1, h2, h3⟩ := h
    exact ⟨H, by rwa [hr], h2.trans hlen, h3⟩
  | index op n =>
    have h : x.removed.length + n.toNat ≤ x.accepted.length := h
    unfold Consumer.Ok
    rw [hr]
    exact h.trans hlen
  | load op n idx got =>
    obtain ⟨h1, h2, h3, h4⟩ := h
    unfold Consumer.Ok
    rw [hr]
    refine ⟨h1.trans hlen, h2, h3, ?_⟩
    rw [ha, List.drop_append_of_le_length hle]
    exact h4.trans (List.prefix_append ..)
  | drop n tail =>
    obtain ⟨h1, h2⟩ := h
    unfold Consumer.Ok
    rw [hr, ht]
    exact ⟨h1.trans hlen, h2⟩

theorem Fits.shrink {p : Push} (h : Fits k x p) (ha : y.accepted = x.accepted)
    (hr : x.removed.length ≤ y.removed.length) : Fits k y p := by
  obtain ⟨h1, h2⟩ := h
  refine ⟨h1, ?_⟩
  rw [ha]
  omega

theorem Producer.Ok.shrink {p : Producer} (h : p.Ok k x) (ha : y.accepted = x.accepted) (hr : x.removed.length ≤ y.removed.length)
    (hh : y.ring.head = x.ring.head) (hb : y.ring.buf = x.ring.buf) : p.Ok k y := by
  cases p with
  | idle => trivial
  | head src => exact h
  | tail src head =>
    obtain ⟨h1, h2⟩ := h
    exact ⟨h1, h2.trans hh.symm⟩
  | index p =>
    have h : Fits k x p := h
    exact h.shrink ha hr
  | store p idx done =>
    obtain ⟨h1, h2⟩ := h
    unfold Producer.Ok
    rw [hb, ha]
    exact ⟨h1.shrink ha hr, h2⟩

theorem Inv.produce (hk : k < 32) (h : Inv k x) (hs : x.produce = some y) : Inv k y := by
  have hp := h.producer
  unfold St.produce at hs
  split at hs
  next hpc => cases hs
  next src hpc =>
    cases hs
    rw [hpc] at hp
    exact ⟨h.mask, h.size, h.removed, h.fits, h.head, h.tail, h.buf, ⟨hp, rfl⟩, h.consumer, h.pushes⟩
  next src head hpc =>
    cases hs
    rw [hpc] at hp
    obtain ⟨hlen, rfl⟩ := hp
    have hused := h.used hk
    have hspace : (spaceOf x.ring x.ring.head x.ring.tail).toNat = x.room := by
      have hmask := h.mask
      have hfits := h.fits
      unfold spaceOf St.room
      split
      next h0 =>
        have hk0 := h.size h0
        rw [hmask, hk0]
        simp
      · rw [BitVec.toNat_sub_of_le (BitVec.le_def.2 (by omega)), hused]
    have htook : src.take (clamp (BitVec.ofNat 32 src.length) (spaceOf x.ring x.ring.head x.ring.tail)).toNat =
        src.take x.room := by
      rw [toNat_clamp, hspace, BitVec.toNat_ofNat, Nat.mod_eq_of_lt hlen, ← List.take_take]
      exact List.take_of_length_le (List.length_take_le' ..)
    refine ⟨h.mask, h.size, h.removed, h.fits, h.head, h.tail, h.buf, ⟨htook, ?_⟩, h.consumer, h.pushes⟩
    have hroom : (src.take x.room).length ≤ x.room := List.length_take_le ..
    have hmask := h.mask
    have hfits := h.fits
    have hle := h.le
    dsimp only
    rw [htook]
    unfold St.room at hroom ⊢
    omega
  next p hpc =>
    cases hs
    rw [hpc] at hp
    have hp : Fits k x p := hp
    refine ⟨h.mask, h.size, h.removed, h.fits, h.head, h.tail, h.buf, ⟨⟨hp.ok, hp.room⟩, Nat.zero_le _, h.head, ?_⟩,
      h.consumer, h.pushes⟩
    exact fun i hi => absurd hi (Nat.not_lt_zero i)
  next p idx done hpc =>
    rw [hpc] at hp
    obtain ⟨hfit, hdone, hidx, hstored⟩ := hp
    split at hs
    next b hb =>
      cases hs
      obtain ⟨hlt, -⟩ := List.getElem?_eq_some_iff.1 hb
      have hroom := hfit.room
      have hle := h.le
      refine ⟨h.mask, h.size, h.removed, h.fits, h.head, h.tail, fun j h1 h2 => ?_, ⟨⟨hfit.ok, hfit.room⟩, hlt, ?_,
        fun i hi => ?_⟩, h.consumer.grow (List.append_nil _).symm rfl rfl h.le, h.pushes⟩
      · -- the byte goes past those that are held
        have h2 : j < x.accepted.length := h2
        have hne : j % 2 ^ k ≠ idx.toNat := by
          rw [hidx]
          exact mod_ne_of_lt (by omega) (by have : x.removed.length ≤ j := h1; omega)
        dsimp only
        rw [Function.update_of_ne hne]
        exact h.buf j h1 h2
      · have := toNat_add_and hk h.mask hidx 1
        unfold next
        rw [this]
        rfl
      · dsimp only
        rcases Nat.lt_succ_iff_lt_or_eq.1 hi with hi | rfl
        · have hne : (x.accepted.length + i) % 2 ^ k ≠ idx.toNat := by
            rw [hidx]
            exact mod_ne_of_lt (by omega) (by omega)
          rw [Function.update_of_ne hne]
          exact hstored i hi
        · rw [← hidx, Function.update_self]
          exact hb
    next hb =>
      cases hs
      have hend : done = p.took.length := le_antisymm hdone (List.getElem?_eq_none_iff.1 hb)
      subst hend
      have hroom := hfit.room
      refine ⟨h.mask, h.size, h.removed.trans (List.prefix_append ..), ?_, ?_, h.tail, fun j h1 h2 => ?_, trivial,
        h.consumer.grow rfl rfl rfl h.le, fun q hq => ?_⟩
      · dsimp only
        rw [List.length_append]
        exact hroom
      · dsimp only
        rw [List.length_append]
        exact hidx
      · dsimp only at h1 h2 ⊢
        rw [List.length_append] at h2
        rcases Nat.lt_or_ge j x.accepted.length with hj | hj
        · rw [List.getElem?_append_left hj]
          exact h.buf j h1 hj
        · rw [List.getElem?_append_right hj]
          have := hstored (j - x.accepted.length) (by omega)
          rwa [Nat.add_sub_cancel' hj] at this
      · rcases List.mem_append.1 hq with hq | hq
        · exact h.pushes q hq
        · rw [List.mem_singleton.1 hq]
          exact hfit.ok

theorem Inv.waits (h : Inv k x) {c : Consumer} (hc : c.Ok k x) : Inv k { x with consumer := c } := by
  refine ⟨h.mask, h.size, h.removed, h.fits, h.head, h.tail, h.buf, ?_, ?_, h.pushes⟩
  · exact h.producer.shrink rfl le_rfl rfl rfl
  · exact hc.grow (List.append_nil _).symm rfl rfl h.le

theorem Inv.removes (h : Inv k x) {l : List UInt8} (hl : l <+: x.accepted.drop x.removed.length)
    (hi : idx.toNat = (x.removed.length + l.length) % 2 ^ k) :
    Inv k { x with ring := { x.ring with tail := idx }, consumer := .idle, removed := x.removed ++ l } := by
  obtain ⟨rest, hrest⟩ := hl
  obtain ⟨more, hmore⟩ := h.removed
  have hdrop : x.accepted.drop x.removed.length = more := by rw [← hmore, List.drop_left]
  have hfits := h.fits
  refine ⟨h.mask, h.size, ⟨rest, ?_⟩, ?_, h.head, ?_, fun j h1 h2 => ?_, ?_, trivial, h.pushes⟩
  · dsimp only
    rw [List.append_assoc, hrest, hdrop, hmore]
  · dsimp only
    rw [List.length_append]
    omega
  · dsimp only
    rw [List.length_append]
    exact hi
  · dsimp only at h1
    rw [List.length_append] at h1
    exact h.buf j (by omega) h2
  · refine h.producer.shrink rfl ?_ rfl rfl
    dsimp only
    rw [List.length_append]
    exact Nat.le_add_right ..

theorem Inv.consume (hk : k < 32) (h : Inv k x) (hs : x.consume = some y) : Inv k y := by
  have hc := h.consumer
  unfold St.consume at hs
  split at hs
  next hpc => cases hs
  next op hpc =>
    cases hs
    exact h.waits ⟨x.accepted.length, h.le, le_rfl, h.head⟩
  next op head hpc =>
    cases hs
    rw [hpc] at hc
    obtain ⟨H, h1, h2, h3⟩ := hc
    have hfits := h.fits
    -- the head may have moved on since it was loaded
    have hused : (usedOf x.ring.mask head x.ring.tail).toNat = H - x.removed.length :=
        toNat_usedOf hk h.mask h3 h.tail h1 (by omega)
    have hclamp : ∀ n : BitVec 32, x.removed.length + (clamp n (usedOf x.ring.mask head x.ring.tail)).toNat ≤
        x.accepted.length := by
      intro n
      have hmin : (clamp n (usedOf x.ring.mask head x.ring.tail)).toNat ≤ H - x.removed.length := by
        rw [toNat_clamp, hused]
        exact Nat.min_le_right ..
      omega
    refine h.waits ?_
    cases op with
    | pop n => exact hclamp n
    | peek n => exact hclamp n
    | drop n => exact hclamp n
    | popOne =>
      unfold Op.counted
      dsimp only
      split
      · trivial
      next h0 =>
        have hpos : (usedOf x.ring.mask head x.ring.tail).toNat ≠ 0 := fun hz => h0 (BitVec.eq_of_toNat_eq hz)
        have hone : x.removed.length + (1 : BitVec 32).toNat ≤ x.accepted.length := by
          have : (1 : BitVec 32).toNat = 1 := rfl
          omega
        exact hone
  next op n hpc =>
    rw [hpc] at hc
    have hc : x.removed.length + n.toNat ≤ x.accepted.length := hc
    split at hs
    next =>
      cases hs
      exact h.waits ⟨hc, rfl⟩
    next =>
      cases hs
      exact h.waits ⟨hc, Nat.zero_le _, h.tail, List.nil_prefix⟩
  next op n idx got hpc =>
    rw [hpc] at hc
    obtain ⟨hn, hgot, hidx, hpre⟩ := hc
    split at hs
    next hlt =>
      cases hs
      have hnext : (next x.ring idx).toNat = (x.removed.length + (got ++ [x.ring.buf idx.toNat]).length) % 2 ^ k := by
        have := toNat_add_and hk h.mask hidx 1
        rw [List.length_append, ← Nat.add_assoc]
        exact this
      refine h.waits ⟨hn, ?_, hnext, ?_⟩
      · rw [List.length_append]
        exact hlt
      · -- the byte that is loaded is the next one that was accepted
        have hbyte := h.buf (x.removed.length + got.length) (Nat.le_add_right ..) (by omega)
        rw [← hidx, ← List.getElem?_drop] at hbyte
        obtain ⟨rest, hrest⟩ := hpre
        rw [← hrest, List.getElem?_append_right le_rfl, Nat.sub_self] at hbyte
        obtain ⟨b, rest, rfl⟩ := List.exists_cons_of_ne_nil (l := rest) (fun hnil => by rw [hnil] at hbyte; cases hbyte)
        obtain rfl : b = x.ring.buf idx.toNat := Option.some.inj hbyte
        refine ⟨rest, ?_⟩
        rw [← hrest, List.append_assoc]
        rfl
    next hge =>
      split at hs
      next =>
        cases hs
        exact h.waits trivial
      next =>
        cases hs
        exact h.removes hpre hidx
  next n tail hpc =>
    cases hs
    rw [hpc] at hc
    obtain ⟨hn, rfl⟩ := hc
    rw [h.held_eq hk]
    refine h.removes (List.take_prefix ..) ?_
    rw [toNat_add_and hk h.mask h.tail, List.length_take, List.length_drop, Nat.min_eq_left (by omega)]

/-! ### Runs -/

theorem toNat_two_pow (hk : k < 32) : (BitVec.ofNat 32 (2 ^ k)).toNat = 2 ^ k := by
  rw [BitVec.toNat_ofNat]
  exact Nat.mod_eq_of_lt (Nat.pow_lt_pow_right Nat.one_lt_two hk)

theorem inv_init (hk : k < 32) (buf : Nat → UInt8) : Inv k { ring := Ring.init (BitVec.ofNat 32 (2 ^ k)) buf } := by
  have hpow := toNat_two_pow hk
  have hpos := Nat.two_pow_pos k
  have hpred : (BitVec.ofNat 32 (2 ^ k) - 1).toNat = 2 ^ k - 1 := by
    rw [BitVec.toNat_sub_of_le (BitVec.le_def.2 (by rw [hpow]; exact hpos)), hpow]
    rfl
  have hsound : (Ring.init (BitVec.ofNat 32 (2 ^ k)) buf).mask.toNat = 2 ^ k - 1 ∧
      ((Ring.init (BitVec.ofNat 32 (2 ^ k)) buf).size = 0 → k = 0) ∧ (Ring.init (BitVec.ofNat 32 (2 ^ k)) buf).head = 0 ∧
      (Ring.init (BitVec.ofNat 32 (2 ^ k)) buf).tail = 0 := by
    unfold Ring.init
    split
    next hr =>
      -- a power of two is refused only where it is below 2
      have hand : BitVec.ofNat 32 (2 ^ k) &&& (BitVec.ofNat 32 (2 ^ k) - 1) = 0 := by
        refine BitVec.eq_of_toNat_eq ?_
        rw [BitVec.toNat_and, hpow, hpred, Nat.and_two_pow_sub_one_eq_mod, Nat.mod_self]
        rfl
      have hlt : 2 ^ k < 2 ^ 1 := by
        have := BitVec.lt_def.1 (hr.resolve_right (not_not.2 hand))
        rwa [hpow] at this
      have hk0 : k = 0 := Nat.lt_one_iff.1 ((Nat.pow_lt_pow_iff_right Nat.one_lt_two).1 hlt)
      subst hk0
      exact ⟨rfl, fun _ => rfl, rfl, rfl⟩
    next =>
      refine ⟨hpred, fun h0 => ?_, rfl, rfl⟩
      have h0 : (BitVec.ofNat 32 (2 ^ k)).toNat = 0 := by
        dsimp only at h0
        rw [h0]
        rfl
      omega
  obtain ⟨h1, h2, h3, h4⟩ := hsound
  refine ⟨h1, h2, List.prefix_rfl, ?_, ?_, ?_, fun j _ hj => absurd hj (Nat.not_lt_zero j), trivial, trivial,
    fun p hp => absurd hp List.not_mem_nil⟩
  · exact Nat.lt_add_of_pos_right hpos
  · dsimp only
    rw [h3]
    exact (Nat.zero_mod _).symm
  · dsimp only
    rw [h4]
    exact (Nat.zero_mod _).symm

theorem Inv.step (hk : k < 32) (h : Inv k x) {a : Act} (hs : x.step a = some y) : Inv k y := by
  cases a with
  | push src =>
    unfold St.step at hs
    dsimp only at hs
    split at hs
    next =>
      split at hs
      next hlen =>
        cases hs
        exact ⟨h.mask, h.size, h.removed, h.fits, h.head, h.tail, h.buf, hlen,
          h.consumer.grow (List.append_nil _).symm rfl rfl h.le, h.pushes⟩
      next => cases hs
    next => cases hs
  | produce => exact h.produce hk hs
  | call op =>
    unfold St.step at hs
    dsimp only at hs
    split at hs
    next =>
      cases hs
      exact h.waits trivial
    next => cases hs
  | consume => exact h.consume hk hs

theorem Reachable.inv (hk : k < 32) (h : Reachable (BitVec.ofNat 32 (2 ^ k)) x) : Inv k x := by
  induction h with
  | init buf => exact inv_init hk buf
  | step a _ hs ih => exact ih.step hk hs

/-- What the consumer removed and what the ring still holds are the bytes that were accepted, in order. A push takes all its bytes
that there was room for when it loaded the tail, and a byte is loaded only once it was accepted. -/
theorem ring_streams (hk : k < 32) (h : Reachable (BitVec.ofNat 32 (2 ^ k)) x) :
    x.removed ++ x.held = x.accepted ∧
    x.held.length ≤ 2 ^ k - 1 ∧ (usedOf x.ring.mask x.ring.head x.ring.tail).toNat = x.held.length ∧
    (∀ p ∈ x.pushes, p.took = p.src.take p.seen) ∧
    ∀ op n idx got, x.consumer = .load op n idx got → got <+: x.held := by
  have hi := h.inv hk
  have hfits := hi.fits
  have hle := hi.le
  rw [hi.held_eq hk, hi.used hk, List.length_drop]
  refine ⟨?_, by omega, rfl, hi.pushes, fun op n idx got hc => ?_⟩
  · obtain ⟨more, hmore⟩ := hi.removed
    rw [← hmore, List.drop_left]
  · have := hi.consumer
    rw [hc] at this
    exact this.2.2.2

def St.run (x : St) (acts : List Act) : Option St := acts.foldlM St.step x

theorem Reachable.run {size : BitVec 32} {acts : List Act} (h : Reachable size x) (hr : x.run acts = some y) :
    Reachable size y := by
  induction acts generalizing x with
  | nil =>
    cases hr
    exact h
  | cons a acts ih =>
    unfold St.run at hr
    rw [List.foldlM_cons] at hr
    obtain ⟨z, hz, hr⟩ := Option.bind_eq_some_iff.1 hr
    exact ih (.step a h hz) hr

/-- A push of five bytes into a ring of four, and a pop of two of them between the first loads of the next push. -/
def pushPop : List Act :=
  .push [1, 2, 3, 4, 5] :: List.replicate 7 .produce ++ [.push [6, 7], .produce, .call (.pop 2)] ++ List.replicate 6 .consume ++
    List.replicate 5 .produce

theorem ring_streams_pushPop : ∃ x, Reachable (BitVec.ofNat 32 (2 ^ 2)) x ∧ x.removed = [1, 2] ∧
    x.removed ++ x.held = x.accepted ∧ x.accepted = [1, 2, 3, 6, 7] := by
  have hex : ((({ ring := Ring.init (BitVec.ofNat 32 (2 ^ 2)) fun _ => 0 } : St).run pushPop).map fun x =>
      decide (x.removed = [1, 2] ∧ x.accepted = [1, 2, 3, 6, 7])) = some true := by decide +kernel
  obtain ⟨x, hx, ht⟩ := Option.map_eq_some_iff.1 hex
  obtain ⟨h1, h2⟩ := of_decide_eq_true ht
  have hr := (Reachable.init _).run hx
  exact ⟨x, hr, h1, (ring_streams (by decide) hr).1, h2⟩

end KickOS.ByteRing

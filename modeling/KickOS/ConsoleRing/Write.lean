import Mathlib.Tactic

/-! The write of a published console (`write_console`): newlines cooked a chunk at a time and pushed into the byte ring.

What a push takes is up to the ring and its consumer: of the bytes it is given it takes those that the room it sees has place for
(`ring_streams`), and the room of every push is an argument here. -/

namespace KickOS.ConsoleRing

/-- The producer's side of the ring: the bytes it took, the pushes there were (each rings the doorbell) and the count of
the bytes. -/
structure Tx where
  queued : List UInt8 := []
  pushes : Nat := 0
  txBytes : BitVec 32 := 0

def cr : UInt8 := 13

def lf : UInt8 := 10

section Push

variable (room : Nat → Nat)

def txWrite (t : Tx) (p : List UInt8) : Tx × Nat :=
  let took := (p.take (room t.pushes)).length
  (⟨t.queued ++ p.take (room t.pushes), t.pushes + 1, t.txBytes + BitVec.ofNat 32 took⟩, took)

/-- The loop of `push_all`, which has no bound of its own; it has not come back where there is no answer. -/
def pushRest (p : List UInt8) : Nat → Tx → Nat → Tx × Option Nat
  | 0, t, off => (t, if off < p.length then none else some off)
  | fuel + 1, t, off =>
    if off < p.length then
      let r := txWrite room t (p.drop off)
      pushRest p fuel r.1 (off + r.2)
    else (t, some off)

def pushAll (fuel : Nat) (t : Tx) (p : List UInt8) : Tx × Option Nat :=
  let r := txWrite room t p
  pushRest room p fuel r.1 r.2

/-- `push_some`; `nonblock` is `KOS_UART_F_NONBLOCK` of the mode. -/
def pushSome (fuel : Nat) (nonblock : Bool) (t : Tx) (p : List UInt8) : Tx × Option Nat :=
  if nonblock then
    let r := txWrite room t p
    (r.1, some r.2)
  else pushAll room fuel t p

/-- The place a byte needs, and what it is written as. -/
def need (b : UInt8) : Nat := if b = lf then 2 else 1

def cookByte (b : UInt8) : List UInt8 := if b = lf then [cr, b] else [b]

/-- `cook_crlf`, past `c` bytes of the staging window: what it writes and the bytes it took. -/
def cookCrlf (cap : Nat) : List UInt8 → Nat → List UInt8 × Nat
  | [], _ => ([], 0)
  | b :: l, c =>
    if cap < c + need b then ([], 0)
    else
      let r := cookCrlf cap l (c + need b)
      (cookByte b ++ r.1, r.2 + 1)

/-- The loop of `write_console`; a turn takes at least one byte. -/
def writeRest (fuel : Nat) (nonblock : Bool) (chunk : Nat) (p : List UInt8) : Nat → Tx → Nat → Tx × Option Nat
  | 0, t, _ => (t, some p.length)
  | left + 1, t, done =>
    if done < p.length then
      let cooked := cookCrlf chunk (p.drop done) 0
      let r := pushSome room fuel nonblock t cooked.1
      match r.2 with
      | none => (r.1, none)
      | some took =>
        if took < cooked.1.length then (r.1, some done) else writeRest fuel nonblock chunk p left r.1 (done + cooked.2)
    else (t, some p.length)

/-- `write_console`; `crlf` is the board's `KICKOS_CONSOLE_CRLF`. -/
def writeConsole (fuel : Nat) (crlf nonblock : Bool) (chunk : Nat) (t : Tx) (p : List UInt8) : Tx × Option Nat :=
  if crlf then
    if p.length = 0 then pushSome room fuel nonblock t [] else writeRest room fuel nonblock chunk p p.length t 0
  else pushSome room fuel nonblock t p

end Push

/-! ### The stream it stands for -/

/-- The bytes on the wire: every newline behind a carriage return, where the board asks for it. -/
def cooked (crlf : Bool) (p : List UInt8) : List UInt8 := if crlf then p.flatMap cookByte else p

section Cooked

variable {crlf : Bool} {p q : List UInt8}

theorem length_cookByte (b : UInt8) : (cookByte b).length = need b := by
  unfold cookByte need
  split
  · rfl
  · rfl

theorem need_cases (b : UInt8) : need b = 1 ∨ need b = 2 := by
  unfold need
  split
  · exact .inr rfl
  · exact .inl rfl

theorem cooked_append (p q : List UInt8) : cooked crlf (p ++ q) = cooked crlf p ++ cooked crlf q := by
  unfold cooked
  split
  · exact List.flatMap_append
  · rfl

theorem cooked_take_add (p : List UInt8) (i j : Nat) :
    cooked crlf (p.take (i + j)) = cooked crlf (p.take i) ++ cooked crlf ((p.drop i).take j) := by
  rw [List.take_add, cooked_append]

theorem cooked_take_isPre (p : List UInt8) (i : Nat) : cooked crlf (p.take i) <+: cooked crlf p := by
  refine ⟨cooked crlf (p.drop i), ?_⟩
  rw [← cooked_append, List.take_append_drop]

theorem length_le_cooked (p : List UInt8) : p.length ≤ (cooked true p).length := by
  induction p with
  | nil => exact Nat.zero_le _
  | cons b p ih =>
    have hone := need_cases b
    have hsplit : cooked true (b :: p) = cookByte b ++ cooked true p := List.flatMap_cons
    rw [hsplit, List.length_append, length_cookByte, List.length_cons]
    omega

theorem lt_of_length_cooked_lt {i j : Nat} (h : (cooked crlf (p.take i)).length < (cooked crlf (p.take j)).length) : i < j := by
  by_contra hle
  have hpre : cooked crlf ((p.take i).take j) <+: cooked crlf (p.take i) := cooked_take_isPre ..
  rw [List.take_take, Nat.min_eq_left (Nat.not_lt.1 hle)] at hpre
  exact absurd hpre.length_le (Nat.not_le.2 h)

theorem cookCrlf_spec (cap : Nat) (l : List UInt8) (c : Nat) :
    (cookCrlf cap l c).2 ≤ l.length ∧ (cookCrlf cap l c).1 = cooked true (l.take (cookCrlf cap l c).2) ∧
    (c ≤ cap → c + (cookCrlf cap l c).1.length ≤ cap) ∧ (l ≠ [] → c + 2 ≤ cap → 0 < (cookCrlf cap l c).2) := by
  induction l generalizing c with
  | nil => exact ⟨le_rfl, rfl, id, fun h => absurd rfl h⟩
  | cons b l ih =>
    have hneed := need_cases b
    unfold cookCrlf
    split
    next hfull => exact ⟨Nat.zero_le _, rfl, id, fun _ hcap => by omega⟩
    next hfits =>
      obtain ⟨h1, h2, h3, -⟩ := ih (c + need b)
      refine ⟨Nat.succ_le_succ h1, ?_, fun _ => ?_, fun _ _ => Nat.succ_pos _⟩
      · have hsplit : cooked true (b :: l.take (cookCrlf cap l (c + need b)).2) =
            cookByte b ++ cooked true (l.take (cookCrlf cap l (c + need b)).2) := List.flatMap_cons
        rw [List.take_succ_cons, hsplit, ← h2]
      · have := h3 (Nat.not_lt.1 hfits)
        dsimp only
        rw [List.length_append, length_cookByte]
        omega

end Cooked

/-! ### Pushes -/

section Pushes

variable {room : Nat → Nat} {fuel : Nat} {t : Tx} {p queued : List UInt8} {off : Nat}

theorem txWrite_drop (room : Nat → Nat) (ht : t.queued = queued ++ p.take off) (hoff : off ≤ p.length) :
    (txWrite room t (p.drop off)).1.queued = queued ++ p.take (off + (txWrite room t (p.drop off)).2) ∧
      off + (txWrite room t (p.drop off)).2 ≤ p.length := by
  obtain ⟨l, hl⟩ : ∃ l, l = (p.drop off).take (room t.pushes) := ⟨_, rfl⟩
  have hpre : l <+: p.drop off := hl ▸ List.take_prefix ..
  have hlen := hpre.length_le
  rw [List.length_drop] at hlen
  unfold txWrite
  dsimp only
  rw [← hl, ht, List.append_assoc, List.take_add, ← List.prefix_iff_eq_take.1 hpre]
  exact ⟨rfl, by omega⟩

theorem pushRest_spec (ht : t.queued = queued ++ p.take off) (hoff : off ≤ p.length) :
    ∃ m ≤ p.length, (pushRest room p fuel t off).1.queued = queued ++ p.take m ∧
      ∀ a, (pushRest room p fuel t off).2 = some a → a = p.length ∧ m = p.length := by
  induction fuel generalizing t off with
  | zero =>
    refine ⟨off, hoff, ht, fun a ha => ?_⟩
    unfold pushRest at ha
    dsimp only at ha
    split at ha
    next => cases ha
    next hge =>
      have : off = p.length := le_antisymm hoff (Nat.not_lt.1 hge)
      exact ⟨(Option.some.inj ha).symm.trans this, this⟩
  | succ fuel ih =>
    unfold pushRest
    split
    next hlt =>
      obtain ⟨h1, h2⟩ := txWrite_drop room ht hoff
      exact ih h1 h2
    next hge =>
      have : off = p.length := le_antisymm hoff (Nat.not_lt.1 hge)
      exact ⟨off, hoff, ht, fun a ha => ⟨(Option.some.inj ha).symm.trans this, this⟩⟩

theorem pushAll_spec (room : Nat → Nat) (fuel : Nat) (t : Tx) (p : List UInt8) :
    ∃ m ≤ p.length, (pushAll room fuel t p).1.queued = t.queued ++ p.take m ∧
      ∀ a, (pushAll room fuel t p).2 = some a → a = p.length ∧ m = p.length := by
  have h0 : t.queued = t.queued ++ p.take 0 := (List.append_nil _).symm
  obtain ⟨h1, h2⟩ := txWrite_drop room h0 (Nat.zero_le _)
  rw [List.drop_zero, Nat.zero_add] at h1 h2
  exact pushRest_spec h1 h2

theorem pushSome_spec (room : Nat → Nat) (fuel : Nat) (nonblock : Bool) (t : Tx) (p : List UInt8) :
    ∃ m ≤ p.length, (pushSome room fuel nonblock t p).1.queued = t.queued ++ p.take m ∧
      (∀ a, (pushSome room fuel nonblock t p).2 = some a → a = m ∧ (nonblock = false → m = p.length)) ∧
      (nonblock = true → (pushSome room fuel nonblock t p).2 = some m) := by
  unfold pushSome
  split
  next hn =>
    have h0 : t.queued = t.queued ++ p.take 0 := (List.append_nil _).symm
    obtain ⟨h1, h2⟩ := txWrite_drop room h0 (Nat.zero_le _)
    rw [List.drop_zero, Nat.zero_add] at h1 h2
    refine ⟨_, h2, h1, fun a ha => ⟨(Option.some.inj ha).symm, fun hf => ?_⟩, fun _ => rfl⟩
    rw [hn] at hf
    cases hf
  next hn =>
    obtain ⟨m, h1, h2, h3⟩ := pushAll_spec room fuel t p
    exact ⟨m, h1, h2, fun a ha => ⟨(h3 a ha).1.trans (h3 a ha).2.symm, fun _ => (h3 a ha).2⟩, fun ht => absurd ht hn⟩

end Pushes

/-! ### The write -/

/-- What a write leaves: what it queued is the front of the stream; what it answers was queued in full and is behind
that by less than a chunk. -/
structure Wrote (crlf nonblock : Bool) (chunk : Nat) (p queued : List UInt8) (r : Tx × Option Nat) (q : List UInt8) : Prop where
  queued : r.1.queued = queued ++ q
  front : q <+: cooked crlf p
  answer : ∀ a, r.2 = some a → a ≤ p.length ∧ cooked crlf (p.take a) <+: q ∧
    ∀ w ≤ p.length, cooked crlf (p.take w) <+: q → w < a + chunk
  all : nonblock = false → ∀ a, r.2 = some a → a = p.length ∧ q = cooked crlf p
  back : nonblock = true → ∃ a, r.2 = some a

section Write

variable {room : Nat → Nat} {fuel chunk : Nat} {nonblock : Bool} {t : Tx} {p queued : List UInt8}

theorem wrote_all {crlf : Bool} (hc : 0 < chunk) (hq : t.queued = queued ++ cooked crlf p) :
    Wrote crlf nonblock chunk p queued (t, some p.length) (cooked crlf p) := by
  refine ⟨hq, List.prefix_rfl, fun a ha => ?_, fun _ a ha => ⟨(Option.some.inj ha).symm, rfl⟩, fun _ => ⟨_, rfl⟩⟩
  obtain rfl : p.length = a := Option.some.inj ha
  exact ⟨le_rfl, by rw [List.take_length], fun w hw _ => by omega⟩

theorem writeRest_spec (hc : 2 ≤ chunk) {left done : Nat} (hdone : done ≤ p.length) (hleft : p.length ≤ done + left)
    (hq : t.queued = queued ++ cooked true (p.take done)) :
    ∃ q, Wrote true nonblock chunk p queued (writeRest room fuel nonblock chunk p left t done) q := by
  induction left generalizing t done with
  | zero =>
    obtain rfl : done = p.length := le_antisymm hdone hleft
    rw [List.take_length] at hq
    exact ⟨_, wrote_all (by omega) hq⟩
  | succ left ih =>
    unfold writeRest
    split
    next hlt =>
      obtain ⟨c, hcook⟩ : ∃ c, c = cookCrlf chunk (p.drop done) 0 := ⟨_, rfl⟩
      obtain ⟨h1, h2, h3, h4⟩ := cookCrlf_spec chunk (p.drop done) 0
      rw [← hcook] at h1 h2 h3 h4
      have hne : p.drop done ≠ [] := fun hnil => absurd (List.drop_eq_nil_iff.1 hnil) (Nat.not_le.2 hlt)
      have hpos : 0 < c.2 := h4 hne (by omega)
      have hcap : c.1.length ≤ chunk := by
        have := h3 (Nat.zero_le _)
        omega
      rw [List.length_drop] at h1
      have hsplit : cooked true (p.take (done + c.2)) = cooked true (p.take done) ++ c.1 := by rw [cooked_take_add, ← h2]
      have htake : c.2 ≤ c.1.length := by
        have := length_le_cooked ((p.drop done).take c.2)
        rw [← h2, List.length_take, List.length_drop] at this
        omega
      obtain ⟨m, hm, hqueued, hanswer, hback⟩ := pushSome_spec room fuel nonblock t c.1
      rw [hq, List.append_assoc] at hqueued
      dsimp only
      rw [← hcook]
      have hfront : cooked true (p.take done) ++ c.1.take m <+: cooked true p := by
        have hpre : cooked true (p.take done) ++ c.1.take m <+: cooked true (p.take done) ++ c.1 :=
          (List.prefix_append_right_inj _).2 (List.take_prefix ..)
        rw [← hsplit] at hpre
        exact hpre.trans (cooked_take_isPre ..)
      rcases hr : (pushSome room fuel nonblock t c.1).2 with _ | took
      · refine ⟨_, hqueued, hfront, fun a ha => absurd ha (by simp), fun _ a ha => absurd ha (by simp), fun hn => ?_⟩
        have := hback hn
        rw [hr] at this
        cases this
      · obtain ⟨rfl, hall⟩ := hanswer took hr
        dsimp only
        split
        next hshort =>
          refine ⟨_, hqueued, hfront, fun a ha => ?_, fun hn => absurd (hall hn) hshort.ne, fun _ => ⟨_, rfl⟩⟩
          obtain rfl : done = a := Option.some.inj ha
          refine ⟨hdone, List.prefix_append .., fun w _ hpre => ?_⟩
          -- the chunk that was cut short is not wholly queued
          have hlen : (cooked true (p.take w)).length < (cooked true (p.take (done + c.2))).length := by
            have := hpre.length_le
            rw [hsplit, List.length_append]
            rw [List.length_append, List.length_take, Nat.min_eq_left hm] at this
            omega
          have := lt_of_length_cooked_lt hlen
          omega
        next hwhole =>
          have hend : took = c.1.length := le_antisymm hm (Nat.not_lt.1 hwhole)
          rw [hend, List.take_length, ← hsplit] at hqueued
          exact ih (by omega) (by omega) hqueued
    next hge =>
      obtain rfl : done = p.length := le_antisymm hdone (Nat.not_lt.1 hge)
      rw [List.take_length] at hq
      exact ⟨_, wrote_all (by omega) hq⟩

theorem writeConsole_spec (room : Nat → Nat) (fuel : Nat) (crlf nonblock : Bool) (hc : 2 ≤ chunk) (t : Tx) (p : List UInt8) :
    ∃ q, Wrote crlf nonblock chunk p t.queued (writeConsole room fuel crlf nonblock chunk t p) q := by
  have hraw : ∀ {l : List UInt8}, cooked crlf l = l → (∀ i, cooked crlf (l.take i) = l.take i) →
      ∃ q, Wrote crlf nonblock chunk l t.queued (pushSome room fuel nonblock t l) q := by
    intro l hl htake
    obtain ⟨m, hm, hqueued, hanswer, hback⟩ := pushSome_spec room fuel nonblock t l
    refine ⟨_, hqueued, by rw [hl]; exact List.take_prefix .., fun a ha => ?_, fun hn a ha => ?_, fun hn => ⟨m, hback hn⟩⟩
    · obtain ⟨rfl, -⟩ := hanswer a ha
      rw [htake]
      refine ⟨hm, List.prefix_rfl, fun w hw hpre => ?_⟩
      rw [htake] at hpre
      have := hpre.length_le
      rw [List.length_take, List.length_take, Nat.min_eq_left hw, Nat.min_eq_left hm] at this
      omega
    · obtain ⟨rfl, hall⟩ := hanswer a ha
      refine ⟨hall hn, ?_⟩
      rw [hall hn, List.take_length, hl]
  unfold writeConsole
  cases crlf with
  | true =>
    rw [if_pos rfl]
    split
    next h0 =>
      obtain rfl : p = [] := List.length_eq_zero_iff.1 h0
      exact hraw rfl fun i => by rw [List.take_nil]; rfl
    next => exact writeRest_spec hc (Nat.zero_le _) (by omega) (List.append_nil _).symm
  | false => exact hraw rfl fun _ => rfl

end Write

/-! ### Coming back -/

section Back

variable {room : Nat → Nat} {t : Tx} {p : List UInt8} {off : Nat}

theorem pushRest_mono {fuel fuel' a : Nat} (hle : fuel ≤ fuel') (h : (pushRest room p fuel t off).2 = some a) :
    pushRest room p fuel' t off = pushRest room p fuel t off := by
  induction fuel generalizing t off fuel' with
  | zero =>
    unfold pushRest at h
    dsimp only at h
    split at h
    next => cases h
    next hge =>
      cases fuel' with
      | zero => rfl
      | succ fuel' =>
        unfold pushRest
        rw [if_neg hge, if_neg hge]
  | succ fuel ih =>
    obtain ⟨fuel', rfl⟩ := Nat.exists_eq_add_of_le hle
    rw [Nat.succ_add] at hle ⊢
    unfold pushRest at h ⊢
    split
    next hlt =>
      rw [if_pos hlt] at h
      exact ih (Nat.le_add_right ..) h
    next => rfl

theorem pushRest_turn {fuel a : Nat} (hlt : off < p.length)
    (h : (pushRest room p fuel (txWrite room t (p.drop off)).1 (off + (txWrite room t (p.drop off)).2)).2 = some a) :
    (pushRest room p (fuel + 1) t off).2 = some a := by
  unfold pushRest
  rw [if_pos hlt]
  exact h

theorem txWrite_le (room : Nat → Nat) (t : Tx) (p : List UInt8) : (txWrite room t p).2 ≤ p.length := List.length_take_le' ..

theorem exists_pushRest (hroom : ∀ i, ∃ j ≥ i, 0 < room j) (hoff : off ≤ p.length) :
    ∃ fuel a, (pushRest room p fuel t off).2 = some a := by
  obtain ⟨left, hleft⟩ : ∃ left, left = p.length - off := ⟨_, rfl⟩
  induction left using Nat.strong_induction_on generalizing t off with
  | _ left ih =>
    rcases Nat.lt_or_ge off p.length with hlt | hge
    · -- a push that takes something leaves less
      have hturn : ∀ t : Tx, 0 < (txWrite room t (p.drop off)).2 → ∃ fuel a, (pushRest room p fuel t off).2 = some a := by
        intro t hpos
        have hle := txWrite_le room t (p.drop off)
        rw [List.length_drop] at hle
        obtain ⟨fuel, a, ha⟩ := ih (p.length - (off + (txWrite room t (p.drop off)).2)) (by omega)
          (t := (txWrite room t (p.drop off)).1) (by omega) rfl
        exact ⟨fuel + 1, a, pushRest_turn hlt ha⟩
      obtain ⟨j, hj, hpos⟩ := hroom t.pushes
      obtain ⟨wait, rfl⟩ := Nat.exists_eq_add_of_le hj
      induction wait generalizing t with
      | zero =>
        refine hturn t ?_
        have htook : (txWrite room t (p.drop off)).2 = min (room t.pushes) (p.length - off) := by
          rw [← List.length_drop, ← List.length_take]
          rfl
        rw [htook]
        exact Nat.lt_min.2 ⟨hpos, Nat.sub_pos_of_lt hlt⟩
      | succ wait ihw =>
        rcases Nat.eq_zero_or_pos (txWrite room t (p.drop off)).2 with h0 | h0
        · have hnext : 0 < room ((txWrite room t (p.drop off)).1.pushes + wait) := by
            rw [show (txWrite room t (p.drop off)).1.pushes + wait = t.pushes + (wait + 1) from Nat.add_right_comm .. ]
            exact hpos
          obtain ⟨fuel, a, ha⟩ := ihw (t := (txWrite room t (p.drop off)).1) (Nat.le_add_right ..) hnext
          refine ⟨fuel + 1, a, pushRest_turn hlt ?_⟩
          rw [h0]
          exact ha
        · exact hturn t h0
    · refine ⟨0, off, ?_⟩
      unfold pushRest
      dsimp only
      rw [if_neg (Nat.not_lt.2 hge)]

theorem exists_pushAll (hroom : ∀ i, ∃ j ≥ i, 0 < room j) (t : Tx) (p : List UInt8) :
    ∃ fuel r a, ∀ fuel' ≥ fuel, pushAll room fuel' t p = (r, some a) := by
  obtain ⟨fuel, a, ha⟩ := exists_pushRest (t := (txWrite room t p).1) hroom (txWrite_le room t p)
  refine ⟨fuel, (pushAll room fuel t p).1, a, fun fuel' hle => ?_⟩
  have hmono : pushAll room fuel' t p = pushAll room fuel t p := pushRest_mono hle ha
  rw [hmono]
  exact Prod.ext rfl ha

theorem exists_writeRest (hroom : ∀ i, ∃ j ≥ i, 0 < room j) (chunk left : Nat) (t : Tx) (done : Nat) :
    ∃ fuel, ∀ fuel' ≥ fuel, (writeRest room fuel' false chunk p left t done).2 ≠ none := by
  induction left generalizing t done with
  | zero => exact ⟨0, fun _ _ h => absurd h (by simp [writeRest])⟩
  | succ left ih =>
    obtain ⟨fuel, r, a, hpush⟩ := exists_pushAll hroom t (cookCrlf chunk (p.drop done) 0).1
    obtain ⟨more, hmore⟩ := ih r (done + (cookCrlf chunk (p.drop done) 0).2)
    refine ⟨max fuel more, fun fuel' hle => ?_⟩
    have hsome : pushSome room fuel' false t (cookCrlf chunk (p.drop done) 0).1 = (r, some a) :=
      hpush fuel' ((le_max_left ..).trans hle)
    unfold writeRest
    split
    · dsimp only
      rw [hsome]
      dsimp only
      split
      · exact Option.some_ne_none _
      · exact hmore fuel' ((le_max_right ..).trans hle)
    · exact Option.some_ne_none _

theorem exists_writeConsole (hroom : ∀ i, ∃ j ≥ i, 0 < room j) (crlf : Bool) (chunk : Nat) (t : Tx) (p : List UInt8) :
    ∃ fuel, (writeConsole room fuel crlf false chunk t p).2 ≠ none := by
  have hsome : ∀ l, ∃ fuel, (pushSome room fuel false t l).2 ≠ none := by
    intro l
    obtain ⟨fuel, r, a, hpush⟩ := exists_pushAll hroom t l
    refine ⟨fuel, ?_⟩
    have : pushSome room fuel false t l = (r, some a) := hpush fuel le_rfl
    rw [this]
    exact Option.some_ne_none _
  unfold writeConsole
  cases crlf with
  | true =>
    rcases Nat.eq_zero_or_pos p.length with h0 | h0
    · obtain ⟨fuel, hfuel⟩ := hsome []
      exact ⟨fuel, by rw [if_pos rfl, if_pos h0]; exact hfuel⟩
    · obtain ⟨fuel, hfuel⟩ := exists_writeRest (p := p) hroom chunk p.length t 0
      exact ⟨fuel, by rw [if_pos rfl, if_neg h0.ne']; exact hfuel fuel le_rfl⟩
  | false => exact hsome p

end Back

/-- A write that blocks queues the stream of its input, whatever the chunk, and answers the input's length; it comes
back where the consumer makes room again and again. A write that does not block queues a front of the stream and answers
input bytes that are in it, fewer than those that are by less than a chunk. -/
theorem write_console_streams (room : Nat → Nat) {chunk : Nat} (hc : 2 ≤ chunk) (crlf : Bool) (t : Tx) (p : List UInt8) :
    (∀ fuel a, (writeConsole room fuel crlf false chunk t p).2 = some a →
      a = p.length ∧ (writeConsole room fuel crlf false chunk t p).1.queued = t.queued ++ cooked crlf p) ∧
    (∀ fuel, ∃ q, (writeConsole room fuel crlf false chunk t p).1.queued = t.queued ++ q ∧ q <+: cooked crlf p) ∧
    ((∀ i, ∃ j ≥ i, 0 < room j) → ∃ fuel, (writeConsole room fuel crlf false chunk t p).2 = some p.length) ∧
    ∀ fuel, ∃ a q, (writeConsole room fuel crlf true chunk t p).2 = some a ∧
      (writeConsole room fuel crlf true chunk t p).1.queued = t.queued ++ q ∧ q <+: cooked crlf p ∧
      a ≤ p.length ∧ cooked crlf (p.take a) <+: q ∧ ∀ w ≤ p.length, cooked crlf (p.take w) <+: q → w < a + chunk := by
  refine ⟨fun fuel a ha => ?_, fun fuel => ?_, fun hroom => ?_, fun fuel => ?_⟩
  · obtain ⟨q, hw⟩ := writeConsole_spec room fuel crlf false hc t p
    obtain ⟨rfl, rfl⟩ := hw.all rfl a ha
    exact ⟨rfl, hw.queued⟩
  · obtain ⟨q, hw⟩ := writeConsole_spec room fuel crlf false hc t p
    exact ⟨q, hw.queued, hw.front⟩
  · obtain ⟨fuel, hfuel⟩ := exists_writeConsole hroom crlf chunk t p
    obtain ⟨a, ha⟩ := Option.ne_none_iff_exists'.1 hfuel
    obtain ⟨q, hw⟩ := writeConsole_spec room fuel crlf false hc t p
    exact ⟨fuel, ha.trans (congrArg some (hw.all rfl a ha).1)⟩
  · obtain ⟨q, hw⟩ := writeConsole_spec room fuel crlf true hc t p
    obtain ⟨a, ha⟩ := hw.back rfl
    obtain ⟨h1, h2, h3⟩ := hw.answer a ha
    exact ⟨a, q, ha, hw.queued, hw.front, h1, h2, h3⟩

/-- Two newlines in chunks of three, with room for five bytes of the six. -/
theorem write_console_streams_pair : 2 ≤ 3 ∧ ∃ a q, (writeConsole (3 - ·) 0 true true 3 {} [65, 10, 10, 66]).2 = some a ∧
    (writeConsole (3 - ·) 0 true true 3 {} [65, 10, 10, 66]).1.queued = q ∧ q <+: [65, 13, 10, 13, 10, 66] := by
  obtain ⟨-, -, -, hw⟩ := write_console_streams (3 - ·) (by decide : 2 ≤ 3) true {} [65, 10, 10, 66]
  obtain ⟨a, q, ha, hq, hf, -⟩ := hw 0
  exact ⟨by decide, a, q, ha, hq, hf⟩

end KickOS.ConsoleRing

import KickOS.Console.Threads

/-! The device is one side's: kernel writers are counted, and none is inside while the driver owns the UART. -/

namespace KickOS
namespace Console
open Function (update update_apply update_eq_self_iff update_of_ne update_self)
namespace State

variable {b : Build} {s s' : State} {c : Ctx} {i : Nat}

/-- Inside the bracket of the chip's writers. -/
def inside : Place → Bool
  | .out => false
  | .handing _ => false
  | _ => true

def writersIn (b : Build) (s : State) : Nat :=
  (Lib.count b.threads fun i => inside (s.place (.thread i))) + Lib.count b.isrs fun j => inside (s.place (.isr j))

def known (b : Build) : Ctx → Bool
  | .thread i => decide (i < b.threads)
  | .isr j => decide (j < b.isrs)

theorem canRun_known (h : s.canRun b c = true) : known b c = true := by
  cases c with
  | thread i =>
    simp only [canRun, Bool.and_eq_true] at h
    exact h.1.1.1.1
  | isr j => exact h

theorem writersIn_set (hc : known b c = true) {p : Place} (hs : s'.place = update s.place c p) :
    writersIn b s' + (inside (s.place c)).toNat = writersIn b s + (inside p).toNat := by
  cases c with
  | thread i =>
    have hset : (fun k => s'.place (.thread k)) = update (fun k => s.place (.thread k)) i p := by
      funext k
      rw [hs]
      by_cases hk : k = i
      · rw [hk, update_self, update_self]
      · rw [update_of_ne hk, update_of_ne (by simpa using hk)]
    have hcount : (Lib.count b.threads fun k => inside (s'.place (.thread k))) + (inside (s.place (.thread i))).toNat =
        (Lib.count b.threads fun k => inside (s.place (.thread k))) + (inside p).toNat := by
      have hup := Lib.count_update (fun k => s.place (.thread k)) p inside (of_decide_eq_true hc)
      rw [← hset] at hup
      exact hup
    have hisr : (Lib.count b.isrs fun j => inside (s'.place (.isr j))) = Lib.count b.isrs fun j => inside (s.place (.isr j)) :=
      Lib.count_congr fun j _ => by rw [hs, update_of_ne (by simp)]
    rw [writersIn, writersIn, hisr]
    omega
  | isr j =>
    have hset : (fun k => s'.place (.isr k)) = update (fun k => s.place (.isr k)) j p := by
      funext k
      rw [hs]
      by_cases hk : k = j
      · rw [hk, update_self, update_self]
      · rw [update_of_ne hk, update_of_ne (by simpa using hk)]
    have hcount : (Lib.count b.isrs fun k => inside (s'.place (.isr k))) + (inside (s.place (.isr j))).toNat =
        (Lib.count b.isrs fun k => inside (s.place (.isr k))) + (inside p).toNat := by
      have hup := Lib.count_update (fun k => s.place (.isr k)) p inside (of_decide_eq_true hc)
      rw [← hset] at hup
      exact hup
    have hthread : (Lib.count b.threads fun k => inside (s'.place (.thread k))) =
        Lib.count b.threads fun k => inside (s.place (.thread k)) :=
      Lib.count_congr fun k _ => by rw [hs, update_of_ne (by simp)]
    rw [writersIn, writersIn, hthread]
    omega

theorem writersIn_pos (hc : known b c = true) (hi : inside (s.place c) = true) : 0 < writersIn b s := by
  cases c with
  | thread i =>
    have : 0 < Lib.count b.threads fun i => inside (s.place (.thread i)) := Lib.count_pos.2 ⟨i, of_decide_eq_true hc, hi⟩
    rw [writersIn]
    omega
  | isr j =>
    have : 0 < Lib.count b.isrs fun j => inside (s.place (.isr j)) := Lib.count_pos.2 ⟨j, of_decide_eq_true hc, hi⟩
    rw [writersIn]
    omega

/-- How far an offer went at a place: a polled line is not empty, a line that was not refused and whose every byte the
device took is given whole, and one whose byte it refused is not. -/
def Fair : Place → Prop
  | .unbuffered l => 0 < l.n
  | .opening l t => t.claimed = false → 0 < l.n
  | .between l t n => n ≤ l.n ∧ (t.claimed = false → 0 < l.n)
  | .putting l t n => n < l.n ∧ (t.claimed = false → 0 < l.n)
  | .stalled l t n => n < l.n ∧ (t.claimed = false → 0 < l.n)
  | .closing l took sent stalled =>
    sent ≤ l.n ∧ (took = 0 → sent = 0) ∧ (took ≠ 0 → stalled = false → sent = l.n) ∧ (stalled = true → sent < l.n)
  | _ => True

/-- What an ended offer may say: a published console writes none of the line, and holds it whole exactly where it is a
record's and the store takes it; any other gives the device the whole line, unless it refuses it or the device refuses a
byte; a line that is refused went nowhere. -/
structure FairOffer (o : Offer) : Prop where
  sent_le : o.sent ≤ o.line.n
  published : o.published = true → o.sent = 0
  held : o.held = true ↔ o.published = true ∧ o.line.kind = .record ∧ o.fits = true
  whole : o.held = true → o.took = o.line.n
  refused : o.took = 0 → o.sent = 0 ∧ o.held = false
  device : o.published = false → o.took ≠ 0 → o.stalled = false → o.sent = o.line.n
  short : o.stalled = true → o.sent < o.line.n

/-- What reached the device, and what became of the offers. -/
structure Logged (s : State) : Prop where
  wire : ∀ w ∈ s.wire, w.owner = .userOwned → w.source = .panic
  offers : ∀ o ∈ s.offers, FairOffer o

/-- The bracket, the hand-over and the log. -/
structure Bracketed (b : Build) (s : State) : Prop where
  count : s.chipWriters = (writersIn b s : Int)
  writing : ∀ i, s.writing i = inside (s.place (.thread i))
  real : ∀ c, s.place c ≠ .out → known b c = true
  user : s.owner = .userOwned → s.chipWriters = 0
  handing : s.owner = .handingOff → ∃ p d, s.publisher = some p ∧ s.live p = true ∧ s.place (.thread p) = .handing d
  publisher : ∀ p d, s.place (.thread p) = .handing d →
    s.publisher = some p ∧ (s.owner = .handingOff ∨ s.owner = .panicked) ∧ (d = true → s.chipWriters = 0)
  armed : s.armed = true → s.owner = .kernelOwned
  ring : 0 < s.ring → s.armed = true ∨ s.owner = .panicked
  fair : ∀ c, Fair (s.place c)
  log : Logged s

/-- What no action on lines, parks and threads changes. -/
structure SameChip (s s' : State) : Prop where
  chipWriters : s'.chipWriters = s.chipWriters
  writing : s'.writing = s.writing
  owner : s'.owner = s.owner
  publisher : s'.publisher = s.publisher
  armed : s'.armed = s.armed

theorem Bracketed.stay (h : Bracketed b s) (hk : SameChip s s') (hplace : s'.place = s.place)
    (hlive : ∀ p d, s.place (.thread p) = .handing d → s.live p = true → s'.live p = true)
    (hring : 0 < s'.ring → s.armed = true ∨ s.owner = .panicked) (hlog : Logged s') : Bracketed b s' := by
  obtain ⟨k1, k2, k3, k4, k5⟩ := hk
  refine ⟨?_, ?_, ?_, ?_, ?_, ?_, ?_, ?_, ?_, hlog⟩
  · rw [k1, writersIn, hplace]
    exact h.count
  · rw [k2, hplace]
    exact h.writing
  · rw [hplace]
    exact h.real
  · rw [k3, k1]
    exact h.user
  · rw [k3, k4, hplace]
    intro ho
    obtain ⟨p, d, h1, h2, h3⟩ := h.handing ho
    exact ⟨p, d, h1, hlive p d h3 h2, h3⟩
  · rw [hplace, k4, k3, k1]
    exact h.publisher
  · rw [k5, k3]
    exact h.armed
  · rw [k5, k3]
    exact hring
  · rw [hplace]
    exact h.fair

theorem Bracketed.moved (h : Bracketed b s) {p : Place} (hc : known b c = true) (hin : inside p = inside (s.place c))
    (hf : Fair p) (hplace : s'.place = update s.place c p) (hcount : s'.chipWriters = s.chipWriters)
    (hwriting : s'.writing = s.writing) (huser : s'.owner = .userOwned → s.chipWriters = 0)
    (hhand : s'.owner = .handingOff → ∃ q d, s'.publisher = some q ∧ s'.live q = true ∧ s'.place (.thread q) = .handing d)
    (hpub : ∀ q d, s'.place (.thread q) = .handing d →
      s'.publisher = some q ∧ (s'.owner = .handingOff ∨ s'.owner = .panicked) ∧ (d = true → s.chipWriters = 0))
    (harm : s'.armed = true → s'.owner = .kernelOwned) (hring : 0 < s'.ring → s'.armed = true ∨ s'.owner = .panicked)
    (hlog : Logged s') : Bracketed b s' := by
  have hset := writersIn_set hc hplace
  rw [hin] at hset
  have hat : ∀ e, s'.place e = if e = c then p else s.place e := fun e => by rw [hplace, update_apply]
  refine ⟨?_, ?_, ?_, ?_, hhand, ?_, harm, hring, ?_, hlog⟩
  · rw [hcount, h.count]
    omega
  · intro i
    rw [hwriting, hat, h.writing]
    split_ifs with he
    · rw [he, hin]
    · rfl
  · intro e he
    rw [hat] at he
    split_ifs at he with hec
    · rw [hec]
      exact hc
    · exact h.real e he
  · rw [hcount]
    exact huser
  · rw [hcount]
    exact hpub
  · intro e
    rw [hat]
    split_ifs
    · exact hf
    · exact h.fair e

theorem Bracketed.turn (h : Bracketed b s) (hk : SameChip s s') {p : Place} (hin : inside (s.place c) = true)
    (hp : inside p = true) (hf : Fair p) (hplace : s'.place = update s.place c p) (hlive : s'.live = s.live)
    (hring : 0 < s'.ring → s.armed = true ∨ s.owner = .panicked) (hlog : Logged s') : Bracketed b s' := by
  obtain ⟨k1, k2, k3, k4, k5⟩ := hk
  have hhand : ∀ q d, s'.place (.thread q) = .handing d ↔ s.place (.thread q) = .handing d := by
    intro q d
    rw [hplace, update_apply]
    split_ifs with he
    · rw [he]
      constructor
      · intro hk
        rw [hk] at hp
        cases hp
      · intro hk
        rw [hk] at hin
        cases hin
    · rfl
  refine h.moved (h.real c fun ho => by rw [ho] at hin; cases hin) (hp.trans hin.symm) hf hplace k1 k2 ?_ ?_ ?_ ?_ ?_ hlog
  · rw [k3]
    exact h.user
  · rw [k3, k4, hlive]
    intro ho
    obtain ⟨q, d, h1, h2, h3⟩ := h.handing ho
    exact ⟨q, d, h1, h2, (hhand q d).2 h3⟩
  · intro q d hq
    rw [k4, k3]
    exact h.publisher q d ((hhand q d).1 hq)
  · rw [k5, k3]
    exact h.armed
  · rw [k5, k3]
    exact hring

theorem Bracketed.not_user (h : Bracketed b s) (hin : inside (s.place c) = true) : s.owner ≠ .userOwned := by
  intro ho
  have hzero := h.user ho
  have hc : known b c = true := h.real c fun ho => by rw [ho] at hin; cases hin
  have hpos := writersIn_pos hc hin
  rw [h.count] at hzero
  omega

theorem Logged.store (h : Logged s) {source : Source} (ho : s.owner ≠ .userOwned ∨ source = .panic) :
    Logged (s.store source) := by
  refine ⟨?_, h.offers⟩
  intro w hw hwo
  rcases List.mem_cons.1 hw with rfl | hw
  · exact ho.resolve_left (not_not.2 hwo)
  · exact h.wire w hw hwo

theorem Logged.congr (h : Logged s) (hw : s'.wire = s.wire) (ho : s'.offers = s.offers) : Logged s' :=
  ⟨by rw [hw]; exact h.wire, by rw [ho]; exact h.offers⟩

theorem Logged.offer (h : Logged s) {o : Offer} (hf : FairOffer o) (hw : s'.wire = s.wire) (ho : s'.offers = o :: s.offers) :
    Logged s' := by
  refine ⟨by rw [hw]; exact h.wire, ?_⟩
  intro x hx
  rw [ho] at hx
  rcases List.mem_cons.1 hx with rfl | hx
  · exact hf
  · exact h.offers x hx

theorem Bracketed.enter (h : Bracketed b s) (hc : known b c = true) (hout : s.place c = .out)
    (ho : s.owner = .kernelOwned ∨ s.owner = .reclaimed) (l : Line) (r : Bool) :
    Bracketed b ((({ s with chipWriters := s.chipWriters + 1 } : State).chipWriterMark c true).setPlace c (.entered l r)) := by
  generalize hs' : (({ s with chipWriters := s.chipWriters + 1 } : State).chipWriterMark c true).setPlace c (.entered l r) = s'
  have hsame : s'.chipWriters = s.chipWriters + 1 ∧ s'.owner = s.owner ∧ s'.armed = s.armed ∧ s'.ring = s.ring ∧
      s'.place = update s.place c (.entered l r) ∧ Logged s' := by
    rw [← hs']
    cases c <;> exact ⟨rfl, rfl, rfl, rfl, rfl, h.log.congr rfl rfl⟩
  obtain ⟨k1, k2, k3, k4, hplace, hlog⟩ := hsame
  have hset := writersIn_set hc hplace
  rw [hout] at hset
  have hat : ∀ e, s'.place e = if e = c then .entered l r else s.place e := fun e => by rw [hplace, update_apply]
  have hnone : ∀ q d, s'.place (.thread q) ≠ .handing d := by
    intro q d hq
    rw [hat] at hq
    split_ifs at hq
    rcases (h.publisher q d hq).2.1 with hk | hk <;> rcases ho with ho | ho <;> rw [ho] at hk <;> cases hk
  refine ⟨?_, ?_, ?_, ?_, ?_, fun q d hq => absurd hq (hnone q d), ?_, ?_, ?_, hlog⟩
  · rw [k1, h.count]
    have hin : (inside (Place.entered l r)).toNat = 1 := rfl
    have hzero : (inside Place.out).toNat = 0 := rfl
    omega
  · intro i
    rw [hat]
    cases c with
    | thread k =>
      have hw : s'.writing = update s.writing k true := by rw [← hs']; rfl
      rw [hw, update_apply]
      by_cases hik : i = k
      · rw [if_pos hik, if_pos (by rw [hik])]
        rfl
      · rw [if_neg hik, if_neg (by simpa using hik)]
        exact h.writing i
    | isr j =>
      have hw : s'.writing = s.writing := by rw [← hs']; rfl
      rw [hw, if_neg (by simp)]
      exact h.writing i
  · intro e he
    rw [hat] at he
    split_ifs at he with hec
    · rw [hec]
      exact hc
    · exact h.real e he
  · intro hu
    rw [k2] at hu
    rcases ho with ho | ho <;> rw [ho] at hu <;> cases hu
  · intro hu
    rw [k2] at hu
    rcases ho with ho | ho <;> rw [ho] at hu <;> cases hu
  · rw [k3, k2]
    exact h.armed
  · rw [k4, k3, k2]
    exact h.ring
  · intro e
    rw [hat]
    split_ifs
    · trivial
    · exact h.fair e

theorem Bracketed.chipWriterEnter (h : Bracketed b s) (hc : known b c = true) (hout : s.place c = .out) {l : Line}
    (hn : l.kind = .record → 0 < l.n) (serves fits : Bool) (current room : Nat) :
    Bracketed b (s.chipWriterEnter c l serves fits current room) := by
  rw [State.chipWriterEnter]
  split_ifs with hp hpub hser hrec
  · refine h.stay ⟨rfl, rfl, rfl, rfl, rfl⟩ rfl (fun _ _ _ hl => hl) h.ring ((h.log.store (.inr rfl)).offer
      ⟨Nat.min_le_right _ _, (fun hk => by cases hk), by simp, (fun hk => by cases hk), fun hk => ⟨?_, rfl⟩,
        fun _ _ hk => ?_, fun hk => ?_⟩ rfl rfl)
    · exact Nat.min_eq_zero_iff.2 (.inr hk)
    · exact Nat.min_eq_right (Nat.le_of_not_lt (of_decide_eq_false hk))
    · exact lt_of_le_of_lt (Nat.min_le_left _ _) (of_decide_eq_true hk)
  · exact h.stay ⟨rfl, rfl, rfl, rfl, rfl⟩ rfl (fun _ _ _ hl => hl) h.ring (h.log.offer
      ⟨Nat.zero_le _, fun _ => rfl, by simp [hser.1], (fun hk => by cases hk), fun _ => ⟨rfl, rfl⟩, (fun hk => by cases hk),
        fun hk => by cases hk⟩ rfl rfl)
  · refine h.stay ⟨rfl, rfl, rfl, rfl, rfl⟩ rfl (fun _ _ _ hl => hl) h.ring (h.log.offer
      ⟨Nat.zero_le _, fun _ => rfl, iff_of_true rfl ⟨rfl, hrec⟩, fun _ => rfl, fun hk => ?_, (fun hk => by cases hk),
        fun hk => by cases hk⟩ rfl rfl)
    have hpos := hn hrec.1
    have hk' : l.n = 0 := hk
    omega
  · exact h.stay ⟨rfl, rfl, rfl, rfl, rfl⟩ rfl (fun _ _ _ hl => hl) h.ring (h.log.offer
      ⟨Nat.zero_le _, fun _ => rfl, iff_of_false (by simp) fun hk => hrec hk.2, (fun hk => by cases hk), fun _ => ⟨rfl, rfl⟩,
        (fun hk => by cases hk), fun hk => by cases hk⟩ rfl rfl)
  · refine h.enter hc hout ?_ l _
    cases ho : s.owner
    · exact .inl rfl
    · rw [ho] at hpub
      exact absurd rfl hpub
    · rw [ho] at hpub
      exact absurd rfl hpub
    · exact .inr rfl
    · exact absurd ho hp

theorem Bracketed.leave (h : Bracketed b s) (hin : inside (s.place c) = true)
    (hk : s'.chipWriters = s.chipWriters - 1 ∧ s'.owner = s.owner ∧ s'.publisher = s.publisher ∧ s'.armed = s.armed ∧
      s'.ring = s.ring ∧ s'.live = s.live ∧ s'.place = update s.place c .out)
    (hw : s'.writing = (s.chipWriterMark c false).writing) (hlog : Logged s') : Bracketed b s' := by
  obtain ⟨k1, k2, k3, k4, k5, k6, hplace⟩ := hk
  have hc : known b c = true := h.real c fun ho => by rw [ho] at hin; cases hin
  have hset := writersIn_set hc hplace
  have hzero : (inside Place.out).toNat = 0 := rfl
  rw [hin, hzero, Bool.toNat_true] at hset
  have hat : ∀ e, s'.place e = if e = c then .out else s.place e := fun e => by rw [hplace, update_apply]
  have hhand : ∀ q d, s'.place (.thread q) = .handing d ↔ s.place (.thread q) = .handing d := by
    intro q d
    rw [hat]
    split_ifs with he
    · rw [he]
      constructor
      · intro hk
        cases hk
      · intro hk
        rw [hk] at hin
        cases hin
    · rfl
  have hless : s.chipWriters = 0 → False := by
    intro h0
    rw [h.count] at h0
    omega
  refine ⟨?_, ?_, ?_, ?_, ?_, ?_, ?_, ?_, ?_, hlog⟩
  · rw [k1, h.count]
    omega
  · intro i
    rw [hat, hw]
    cases c with
    | thread k =>
      show update s.writing k false i = _
      rw [update_apply]
      by_cases hik : i = k
      · rw [if_pos hik, if_pos (by rw [hik])]
        rfl
      · rw [if_neg hik, if_neg (by simpa using hik)]
        exact h.writing i
    | isr j =>
      rw [if_neg (by simp)]
      exact h.writing i
  · intro e he
    rw [hat] at he
    split_ifs at he with hec
    · exact absurd rfl he
    · exact h.real e he
  · rw [k2]
    exact fun hu => absurd (h.user hu) hless
  · rw [k2, k3, k6]
    intro ho
    obtain ⟨q, d, h1, h2, h3⟩ := h.handing ho
    exact ⟨q, d, h1, h2, (hhand q d).2 h3⟩
  · intro q d hq
    rw [k3, k2]
    obtain ⟨p1, p2, p3⟩ := h.publisher q d ((hhand q d).1 hq)
    exact ⟨p1, p2, fun hd => absurd (p3 hd) hless⟩
  · rw [k4, k2]
    exact h.armed
  · rw [k5, k4, k2]
    exact h.ring
  · intro e
    rw [hat]
    split_ifs
    · trivial
    · exact h.fair e

theorem Bracketed.leaveOffer (h : Bracketed b s) {l : Line} {took sent : Nat} {stalled : Bool}
    (hp : s.place c = .closing l took sent stalled) : Bracketed b (s.leaveOffer c) := by
  obtain ⟨p, hp'⟩ := chipWriterLeave_eq s c
  have hfair := h.fair c
  rw [hp] at hfair
  obtain ⟨f1, f2, f3, f4⟩ := hfair
  unfold State.leaveOffer
  rw [hp, hp']
  refine h.leave (by rw [hp]; rfl) ⟨rfl, rfl, rfl, rfl, rfl, rfl, rfl⟩ rfl ?_
  exact h.log.offer ⟨f1, (fun hk => by cases hk), by simp, (fun hk => by cases hk), fun hk => ⟨f2 hk, rfl⟩, fun _ => f3, f4⟩
    rfl rfl

theorem fair_refused {l : Line} : Fair (.closing l 0 0 false) :=
  ⟨Nat.zero_le _, fun _ => rfl, fun hk => absurd rfl hk, fun hk => by cases hk⟩

theorem Bracketed.queueLine (h : Bracketed b s) {l : Line} {r : Bool} (hp : s.place c = .entered l r) (room : Bool) :
    Bracketed b (s.queueLine c l room) := by
  have hin : inside (s.place c) = true := by
    rw [hp]
    rfl
  rw [State.queueLine]
  split_ifs with hn ha hr
  · exact h.turn (p := .closing l 0 0 false) ⟨rfl, rfl, rfl, rfl, rfl⟩ hin rfl fair_refused rfl rfl h.ring
      (h.log.congr rfl rfl)
  · exact h.turn (p := .unbuffered l) ⟨rfl, rfl, rfl, rfl, rfl⟩ hin rfl (Nat.pos_of_ne_zero hn) rfl rfl h.ring
      (h.log.congr rfl rfl)
  · exact h.turn (p := .draining l) ⟨rfl, rfl, rfl, rfl, rfl⟩ hin rfl trivial rfl rfl
      (fun _ => .inl (by simpa using ha)) (h.log.congr rfl rfl)
  · exact h.turn (p := .closing l 0 0 false) ⟨rfl, rfl, rfl, rfl, rfl⟩ hin rfl fair_refused rfl rfl h.ring
      (h.log.congr rfl rfl)

theorem Bracketed.lineAhead_inside (h : Bracketed b s) {l : Line} {claimed : Bool}
    (ha : lineAhead b (s.place c) = some (l, claimed)) :
    inside (s.place c) = true ∧ (claimed = false → 0 < l.n) := by
  have hf := h.fair c
  cases hp : s.place c with
  | entered k r =>
    rw [hp] at ha
    refine ⟨rfl, ?_⟩
    cases r with
    | true => cases ha
    | false =>
      rw [lineAhead] at ha
      split_ifs at ha
      cases ha
      exact fun hk => by cases hk
  | unbuffered k =>
    rw [hp] at ha hf
    cases ha
    exact ⟨rfl, fun _ => hf⟩
  | _ =>
    rw [hp] at ha
    cases ha

theorem Bracketed.lineTake (h : Bracketed b s) {l : Line} {claimed : Bool} (hin : inside (s.place c) = true)
    (hn : claimed = false → 0 < l.n) (claimLeft : Bool) : Bracketed b (s.lineTake b c l claimed claimLeft) := by
  obtain ⟨o, w, p, -, heq | ⟨i, rfl, -, heq⟩ | ⟨-, u, heq⟩⟩ := lineTake_cases b s c l claimed claimLeft
  · rw [heq]
    exact h.turn (p := .closing l 0 0 false) ⟨rfl, rfl, rfl, rfl, rfl⟩ hin rfl fair_refused rfl rfl h.ring
      (h.log.congr rfl rfl)
  · rw [heq]
    exact h.turn (p := .opening l (s.turnOf (.thread i) l claimed)) ⟨rfl, rfl, rfl, rfl, rfl⟩ hin rfl hn rfl rfl h.ring
      (h.log.congr rfl rfl)
  · rw [heq]
    exact h.turn (p := .between l (s.turnOf c l claimed) 0) ⟨rfl, rfl, rfl, rfl, rfl⟩ hin rfl ⟨Nat.zero_le _, hn⟩ rfl rfl
      h.ring (h.log.congr rfl rfl)

theorem Fair.lineEnding {p : Place} {l : Line} {t : Turn} {n : Nat} {stalled : Bool} (hf : Fair p)
    (h : lineEnding p = some (l, t, n, stalled)) : inside p = true ∧ n ≤ l.n ∧ (t.claimed = false → 0 < l.n) ∧
      (stalled = false → n = l.n) ∧ (stalled = true → n < l.n) := by
  cases p with
  | between k u m =>
    rw [State.lineEnding] at h
    split_ifs at h with hm
    cases h
    exact ⟨rfl, hf.1, hf.2, fun _ => hm, fun hk => by cases hk⟩
  | stalled k u m =>
    cases h
    exact ⟨rfl, hf.1.le, hf.2, (fun hk => by cases hk), fun _ => hf.1⟩
  | _ => cases h

theorem Bracketed.lineEnd (h : Bracketed b s) {l : Line} {t : Turn} {n : Nat} {stalled : Bool}
    (hp : lineEnding (s.place c) = some (l, t, n, stalled)) (claimLeft : Bool) :
    Bracketed b (s.lineEnd c l t n stalled claimLeft) := by
  obtain ⟨hin, f1, f2, f3, f4⟩ := (h.fair c).lineEnding hp
  rw [State.lineEnd]
  split_ifs with hc
  · obtain ⟨x, w, p, heq, -⟩ := claimedEnd_eq s c t claimLeft
    rw [heq]
    exact h.turn (p := .closing l n n stalled) ⟨rfl, rfl, rfl, rfl, rfl⟩ hin rfl ⟨f1, id, fun _ => f3, f4⟩ rfl rfl h.ring
      (h.log.congr rfl rfl)
  · have hpos := f2 (by simpa using hc)
    exact h.turn (p := .closing l l.n n stalled) ⟨rfl, rfl, rfl, rfl, rfl⟩ hin rfl
      ⟨f1, (fun hk => by omega), fun _ => f3, f4⟩ rfl rfl h.ring (h.log.congr rfl rfl)

theorem Bracketed.putByte (h : Bracketed b s) {l : Line} {t : Turn} {n : Nat} (hp : s.place c = .between l t n) (hn : n < l.n) :
    Bracketed b (s.putByte c) := by
  have hin : inside (s.place c) = true := by
    rw [hp]
    rfl
  have hfair := h.fair c
  rw [hp] at hfair
  unfold State.putByte
  rw [hp]
  dsimp only
  split_ifs
  · exact h.turn (p := .putting l t n) ⟨rfl, rfl, rfl, rfl, rfl⟩ hin rfl ⟨hn, hfair.2⟩ rfl rfl h.ring (h.log.congr rfl rfl)
  · exact h.turn (p := .putting l t n) ⟨rfl, rfl, rfl, rfl, rfl⟩ hin rfl ⟨hn, hfair.2⟩ rfl rfl h.ring (h.log.congr rfl rfl)

theorem Bracketed.storeByte (h : Bracketed b s) {l : Line} {t : Turn} {n : Nat} (hp : s.place c = .putting l t n)
    (stored : Bool) : Bracketed b (s.storeByte c stored) := by
  have hin : inside (s.place c) = true := by
    rw [hp]
    rfl
  have ho := h.not_user hin
  have hfair := h.fair c
  rw [hp] at hfair
  obtain ⟨f1, f2⟩ := hfair
  unfold State.storeByte
  rw [hp]
  dsimp only
  have hline : ∃ x, (if t.givesWay c = true then s.setLine fun y => { y with byte := false } else s) = { s with line := x } := by
    split_ifs
    · exact ⟨_, rfl⟩
    · exact ⟨s.line, rfl⟩
  obtain ⟨x, hx⟩ := hline
  rw [hx]
  have hlog : Logged ({ s with line := x } : State) := h.log.congr rfl rfl
  split_ifs
  · exact h.turn (p := .between l t (n + 1)) ⟨rfl, rfl, rfl, rfl, rfl⟩ hin rfl ⟨f1, f2⟩ rfl rfl h.ring
      ((hlog.store (.inl ho)).congr rfl rfl)
  · exact h.turn (p := .stalled l t n) ⟨rfl, rfl, rfl, rfl, rfl⟩ hin rfl ⟨f1, f2⟩ rfl rfl h.ring
      (h.log.congr rfl rfl)

theorem Bracketed.reown (h : Bracketed b s) (hc : s'.chipWriters = s.chipWriters) (hw : s'.writing = s.writing)
    (hp : s'.place = s.place) (huser : s'.owner = .userOwned → s.chipWriters = 0)
    (hhand : s'.owner = .handingOff → ∃ p d, s'.publisher = some p ∧ s'.live p = true ∧ s.place (.thread p) = .handing d)
    (hpub : ∀ p d, s.place (.thread p) = .handing d →
      s'.publisher = some p ∧ (s'.owner = .handingOff ∨ s'.owner = .panicked) ∧ (d = true → s.chipWriters = 0))
    (harm : s'.armed = true → s'.owner = .kernelOwned) (hring : 0 < s'.ring → s'.armed = true ∨ s'.owner = .panicked)
    (hlog : Logged s') : Bracketed b s' := by
  refine ⟨?_, ?_, ?_, ?_, ?_, ?_, harm, hring, ?_, hlog⟩
  · rw [hc, writersIn, hp]
    exact h.count
  · rw [hw, hp]
    exact h.writing
  · rw [hp]
    exact h.real
  · rw [hc]
    exact huser
  · rw [hp]
    exact hhand
  · rw [hp, hc]
    exact hpub
  · rw [hp]
    exact h.fair

theorem Logged.heldFlush (h : Logged s) (source : Source) (ho : s.owner ≠ .userOwned ∨ source = .panic) :
    Logged (s.heldFlush source) := by
  rw [State.heldFlush]
  split_ifs
  · exact h
  · exact (h.store ho).congr rfl rfl

theorem Logged.flushThenReclaim (h : Logged s) (source : Source) (ho : s.owner ≠ .userOwned ∨ source = .panic) :
    Logged (s.flushThenReclaim source) := (h.store ho).heldFlush source ho

theorem Logged.txFlush (h : Logged s) (source : Source) (ho : s.owner ≠ .userOwned ∨ source = .panic) :
    Logged (s.txFlush source) := by
  rw [State.txFlush]
  split_ifs
  · exact h
  · exact (h.store ho).congr rfl rfl

theorem Bracketed.onDriverDeath (h : Bracketed b s) (free : Bool) : Bracketed b (s.onDriverDeath free) := by
  rw [State.onDriverDeath]
  split_ifs with h1 h2
  · exact h
  · exact h
  · dsimp only
    split_ifs with h3
    · exact h.stay ⟨rfl, rfl, rfl, rfl, rfl⟩ rfl (fun _ _ _ hl => hl) h.ring (h.log.congr rfl rfl)
    · rw [not_not] at h3
      have hown : Logged { s with driverDied := false, owner := .reclaimed } := h.log.congr rfl rfl
      have hlog := hown.flushThenReclaim .reclaim (.inl fun hk => by cases hk)
      obtain ⟨w, l, heq⟩ := flushThenReclaim_eq { s with driverDied := false, owner := .reclaimed } .reclaim
      rw [heq] at hlog
      rw [heq]
      refine h.reown rfl rfl rfl (fun hk => by cases hk) (fun hk => by cases hk) ?_ ?_ ?_ (hlog.congr rfl rfl)
      · intro p d hp
        rcases (h.publisher p d hp).2.1 with hk | hk <;> rw [h3] at hk <;> cases hk
      · intro ha
        have := h.armed ha
        rw [h3] at this
        cases this
      · intro hr
        refine .inl ((h.ring hr).resolve_right fun hk => ?_)
        rw [h3] at hk
        cases hk

theorem Bracketed.kpanicEnter (h : Bracketed b s) : Bracketed b s.kpanicEnter := by
  have hend : ∀ w l, Logged { s with wire := w, held := l } →
      Bracketed b { ({ s with wire := w, held := l } : State).txFlush .panic with
        panicClaim := true, armed := false, owner := .panicked } := by
    intro w l hlog
    obtain ⟨w', n, heq, -⟩ := txFlush_eq { s with wire := w, held := l } .panic
    have hlog' := hlog.txFlush .panic (.inr rfl)
    rw [heq] at hlog' ⊢
    refine h.reown rfl rfl rfl (fun hk => by cases hk) (fun hk => by cases hk) ?_ (fun hk => by cases hk)
      (fun _ => .inr rfl) (hlog'.congr rfl rfl)
    intro p d hp
    obtain ⟨p1, -, p3⟩ := h.publisher p d hp
    exact ⟨p1, .inr rfl, p3⟩
  rw [State.kpanicEnter]
  split_ifs
  · exact h
  · obtain ⟨w, l, heq⟩ := flushThenReclaim_eq s .panic
    have hlog := h.log.flushThenReclaim .panic (.inr rfl)
    rw [heq] at hlog ⊢
    exact hend w l hlog
  · exact hend s.wire s.held h.log

theorem Bracketed.kpanicEnterUnlocked (h : Bracketed b s) : Bracketed b s.kpanicEnterUnlocked := by
  have hpub : ∀ p d, s.place (.thread p) = .handing d →
      s.publisher = some p ∧ (Owner.panicked = .handingOff ∨ Owner.panicked = .panicked) ∧ (d = true → s.chipWriters = 0) := by
    intro p d hp
    obtain ⟨p1, -, p3⟩ := h.publisher p d hp
    exact ⟨p1, .inr rfl, p3⟩
  have hlog : Logged { s with armed := false, owner := .panicked, panicClaim := true } := h.log.congr rfl rfl
  rw [State.kpanicEnterUnlocked]
  split_ifs
  · exact h.reown rfl rfl rfl (fun hk => by cases hk) (fun hk => by cases hk) hpub (fun hk => by cases hk)
      (fun _ => .inr rfl) (hlog.store (.inr rfl))
  · exact h.reown rfl rfl rfl (fun hk => by cases hk) (fun hk => by cases hk) hpub (fun hk => by cases hk)
      (fun _ => .inr rfl) hlog

theorem Bracketed.publish (h : Bracketed b s) {p : Nat} (hp : s.canRun b (.thread p) = true)
    (hout : s.place (.thread p) = .out) (hr : s.handoverRefused = false) :
    Bracketed b ((s.handoverBegin p).setPlace (.thread p) (.handing false)) := by
  have hrefused : s.owner ≠ .handingOff ∧ s.owner ≠ .panicked := by
    simp only [handoverRefused, Bool.or_eq_false_iff, beq_eq_false_iff_ne] at hr
    exact hr
  have hnone : ∀ q d, s.place (.thread q) ≠ .handing d := by
    intro q d hq
    rcases (h.publisher q d hq).2.1 with hk | hk
    · exact hrefused.1 hk
    · exact hrefused.2 hk
  obtain ⟨w, n, heq, hn, hn'⟩ :=
    txFlush_eq { s with driverDied := false, owner := .handingOff, publisher := some p } .flush
  have hown : Logged { s with driverDied := false, owner := .handingOff, publisher := some p } := h.log.congr rfl rfl
  have hlog := hown.txFlush .flush (.inl fun hk => by cases hk)
  have hzero : n = 0 := by
    cases ha : s.armed with
    | true => exact hn ha
    | false =>
      rw [hn' ha]
      by_contra hne
      rcases h.ring (Nat.pos_of_ne_zero hne) with hk | hk
      · rw [ha] at hk
        cases hk
      · exact hrefused.2 hk
  have hbegin : s.handoverBegin p =
      { s with driverDied := false, owner := .handingOff, publisher := some p, wire := w, ring := 0, armed := false } := by
    rw [handoverBegin, txDeinit, heq, hzero]
  rw [heq] at hlog
  rw [hbegin]
  refine h.moved (p := .handing false) (canRun_known hp) (by rw [hout]; rfl) trivial rfl rfl rfl (fun hk => by cases hk) ?_ ?_
    (fun hk => by cases hk) (fun hk => absurd hk (Nat.lt_irrefl 0)) (hlog.congr rfl rfl)
  · exact fun _ => ⟨p, false, rfl, (canRun_thread hp).2.1, update_self _ _ _⟩
  · intro q d hq
    have hq' : update s.place (.thread p) (.handing false) (.thread q) = .handing d := hq
    rw [update_apply] at hq'
    split_ifs at hq' with hqp
    · cases hqp
      cases hq'
      exact ⟨rfl, .inl rfl, fun hd => by cases hd⟩
    · exact absurd hq' (hnone q d)

theorem Bracketed.looked (h : Bracketed b s) {p : Nat} (hp : s.place (.thread p) = .handing false)
    (h0 : s.chipWriters = 0) : Bracketed b (s.setPlace (.thread p) (.handing true)) := by
  have hhand : ∀ q d, (s.setPlace (.thread p) (.handing true)).place (.thread q) = .handing d →
      ∃ d', s.place (.thread q) = .handing d' := by
    intro q d hq
    have hq' : update s.place (.thread p) (.handing true) (.thread q) = .handing d := hq
    rw [update_apply] at hq'
    split_ifs at hq' with hqp
    · cases hqp
      exact ⟨false, hp⟩
    · exact ⟨d, hq'⟩
  refine h.moved (p := .handing true) (h.real _ (by rw [hp]; exact fun hk => by cases hk)) (by rw [hp]; rfl) trivial rfl rfl
    rfl h.user ?_ ?_ h.armed h.ring (h.log.congr rfl rfl)
  · intro ho
    obtain ⟨q, d, h1, h2, h3⟩ := h.handing ho
    refine ⟨q, if q = p then true else d, h1, h2, ?_⟩
    show update s.place (.thread p) (.handing true) (.thread q) = _
    rw [update_apply]
    by_cases hq : q = p
    · rw [if_pos (by rw [hq]), if_pos hq]
    · rw [if_neg (by simpa using hq), if_neg hq]
      exact h3
  · intro q d hq
    obtain ⟨d', hd'⟩ := hhand q d hq
    obtain ⟨p1, p2, -⟩ := h.publisher q d' hd'
    exact ⟨p1, p2, fun _ => h0⟩

theorem Bracketed.setUser (h : Bracketed b s) {p : Nat} (hp : s.place (.thread p) = .handing true) (free : Bool) :
    Bracketed b ((s.setPlace (.thread p) .out).ownerSetUser free) := by
  obtain ⟨p1, p2, p3⟩ := h.publisher p true hp
  have h0 := p3 rfl
  have hother : ∀ q d, q ≠ p → s.place (.thread q) ≠ .handing d := by
    intro q d hq hqd
    have := (h.publisher q d hqd).1
    rw [p1] at this
    exact hq (Option.some.inj this).symm
  have hout : ∀ q d, update s.place (.thread p) Place.out (.thread q) ≠ .handing d := by
    intro q d hq
    rw [update_apply] at hq
    split_ifs at hq with hqp
    exact hother q d (fun hk => hqp (by rw [hk])) hq
  have hknown : known b (.thread p) = true := h.real _ (by rw [hp]; exact fun hk => by cases hk)
  have hin : inside Place.out = inside (s.place (.thread p)) := by
    rw [hp]
    rfl
  have hfirst : Bracketed b (({ s with publisher := none, owner := if s.owner = .handingOff then .userOwned else s.owner }
      : State).setPlace (.thread p) .out) := by
    refine h.moved hknown hin trivial rfl rfl rfl (fun _ => h0) ?_ (fun q d hq => absurd hq (hout q d)) ?_ ?_
      (h.log.congr rfl rfl)
    · intro ho
      have ho' : (if s.owner = .handingOff then Owner.userOwned else s.owner) = .handingOff := ho
      split_ifs at ho' with hk
      exact absurd ho' hk
    · intro ha
      have hk := h.armed ha
      show (if s.owner = .handingOff then Owner.userOwned else s.owner) = .kernelOwned
      rw [hk, if_neg (by decide)]
    · intro hr
      show s.armed = true ∨ (if s.owner = .handingOff then Owner.userOwned else s.owner) = .panicked
      refine (h.ring hr).imp id fun hk => ?_
      rw [hk, if_neg (by decide)]
  rw [State.ownerSetUser, if_neg (not_not.2 (show (s.setPlace (.thread p) .out).chipWriters = 0 from h0))]
  by_cases ho : s.owner = .handingOff
  · rw [if_pos ho] at hfirst
    dsimp only
    rw [if_neg (not_not.2 (show (s.setPlace (.thread p) .out).owner = .handingOff from ho))]
    split_ifs
    · exact hfirst.onDriverDeath free
    · exact hfirst.stay ⟨rfl, rfl, rfl, rfl, rfl⟩ rfl (fun _ _ _ hl => hl) hfirst.ring (hfirst.log.congr rfl rfl)
  · rw [if_neg ho] at hfirst
    dsimp only
    rw [if_pos (show (s.setPlace (.thread p) .out).owner ≠ .handingOff from ho)]
    exact hfirst

theorem slainFields_handover {w : Bool} {l : List Held} {p : Nat → Bool} (h : ¬(s.publisher = some i ∧ s.owner = .handingOff)) :
    (s.slainFields b i w l p).slainHandover i = s.slainFields b i w l p := if_neg h

theorem outside_cases {p : Place} (h : ¬inside p = true) : p = .out ∨ ∃ d, p = .handing d := by
  cases p with
  | out => exact .inl rfl
  | handing d => exact .inr ⟨d, rfl⟩
  | _ => exact absurd rfl h

theorem Bracketed.publisher_handing (h : Bracketed b s) (hp : s.publisher = some i ∧ s.owner = .handingOff) :
    ∃ d, s.place (.thread i) = .handing d := by
  obtain ⟨q, d, h1, -, h3⟩ := h.handing hp.2
  rw [hp.1] at h1
  cases h1
  exact ⟨d, h3⟩

/-- A slain thread's exit: the bracket it died inside is left for it, and a hand-over of its own is undone. -/
theorem Bracketed.slayExit (h : Bracketed b s) (i : Nat) : Bracketed b (s.slayExit b i) := by
  obtain ⟨w, l, p, heq⟩ := kconsoleSlain_eq b s i
  rw [State.slayExit, heq]
  by_cases hin : inside (s.place (.thread i)) = true
  · have hno : ¬(s.publisher = some i ∧ s.owner = .handingOff) := by
      intro hp
      obtain ⟨d, hd⟩ := h.publisher_handing hp
      rw [hd] at hin
      cases hin
    have hw : s.writing i = true := (h.writing i).trans hin
    rw [slainFields_handover hno]
    refine h.leave hin ⟨?_, rfl, rfl, rfl, rfl, rfl, rfl⟩ ?_ (h.log.congr rfl rfl)
    · exact if_pos hw
    · exact if_pos hw
  · have hw : s.writing i = false := (h.writing i).trans (Bool.eq_false_of_not_eq_true hin)
    have hcount : (s.slainFields b i w l p).chipWriters = s.chipWriters := if_neg (by rw [hw]; decide)
    have hwriting : (s.slainFields b i w l p).writing = s.writing := if_neg (by rw [hw]; decide)
    rcases outside_cases hin with hout | ⟨d, hd⟩
    · have hno : ¬(s.publisher = some i ∧ s.owner = .handingOff) := by
        intro hp
        obtain ⟨d, hd⟩ := h.publisher_handing hp
        rw [hd] at hout
        cases hout
      rw [slainFields_handover hno]
      refine h.stay ⟨hcount, hwriting, rfl, rfl, rfl⟩ ?_ (fun _ _ _ hl => hl) h.ring (h.log.congr rfl rfl)
      exact update_eq_self_iff.2 hout.symm
    · have hknown : known b (.thread i) = true := h.real _ (by rw [hd]; exact fun hk => by cases hk)
      obtain ⟨p1, p2, -⟩ := h.publisher i d hd
      have hnone : ∀ q e, update s.place (.thread i) Place.out (.thread q) ≠ .handing e := by
        intro q e hq
        rw [update_apply] at hq
        split_ifs at hq with hqi
        have hpub := (h.publisher q e hq).1
        rw [p1] at hpub
        cases hpub
        exact hqi rfl
      have hside : inside Place.out = inside (s.place (.thread i)) := by
        rw [hd]
        rfl
      rcases p2 with ho | ho
      · have hown : Logged { s.slainFields b i w l p with publisher := none, owner := .reclaimed } := h.log.congr rfl rfl
        have hlog := hown.heldFlush .reclaim (.inl fun hk => by cases hk)
        obtain ⟨w', l', hflush⟩ := heldFlush_eq { s.slainFields b i w l p with publisher := none, owner := .reclaimed } .reclaim
        have hundo : (s.slainFields b i w l p).slainHandover i =
            ({ s.slainFields b i w l p with publisher := none, owner := .reclaimed, wire := w', held := l' } : State).darkWake :=
          (if_pos ⟨p1, ho⟩).trans (congrArg darkWake hflush)
        rw [hflush] at hlog
        rw [hundo]
        refine h.moved hknown hside trivial rfl hcount hwriting (fun hk => by cases hk) (fun hk => by cases hk)
          (fun q e hq => absurd hq (hnone q e)) ?_ ?_ (hlog.congr rfl rfl)
        · intro ha
          have hk := h.armed ha
          rw [ho] at hk
          cases hk
        · intro hr
          rcases h.ring hr with ha | hk
          · exact .inl ha
          · rw [ho] at hk
            cases hk
      · rw [slainFields_handover (by rw [ho]; exact fun hk => by cases hk.2)]
        refine h.moved hknown hside trivial rfl hcount hwriting h.user ?_ (fun q e hq => absurd hq (hnone q e)) h.armed h.ring
          (h.log.congr rfl rfl)
        intro hk
        have hk' : s.owner = .handingOff := hk
        rw [ho] at hk'
        cases hk'

theorem Bracketed.exit (h : Bracketed b s) (hout : ∀ d, s.place (.thread i) ≠ .handing d) :
    Bracketed b { s with live := update s.live i false, exiting := update s.exiting i false } := by
  refine h.stay ⟨rfl, rfl, rfl, rfl, rfl⟩ rfl ?_ h.ring (h.log.congr rfl rfl)
  intro p d hp hl
  have hne : p ≠ i := by
    rintro rfl
    exact hout d hp
  exact (update_of_ne hne _ _).trans hl

theorem Bracketed.spawn (h : Bracketed b s) (hout : s.place (.thread i) = .out) : Bracketed b (s.spawn i) := by
  have hw : s.writing i = false := by
    rw [h.writing, hout]
    rfl
  refine h.stay ⟨rfl, ?_, rfl, rfl, rfl⟩ ?_ ?_ h.ring (h.log.congr rfl rfl)
  · exact update_eq_self_iff.2 hw.symm
  · exact update_eq_self_iff.2 hout.symm
  · intro p d hp hl
    by_cases hpi : p = i
    · rw [hpi]
      exact update_self _ _ _
    · exact (update_of_ne hpi _ _).trans hl

theorem Bracketed.push (h : Bracketed b s) (hr : 0 < s.ring) (source : Source) : Bracketed b (s.push source) := by
  have hown : s.owner ≠ .userOwned := by
    intro ho
    rcases h.ring hr with ha | hk
    · rw [h.armed ha] at ho
      cases ho
    · rw [hk] at ho
      cases ho
  refine h.stay ⟨rfl, rfl, rfl, rfl, rfl⟩ rfl (fun _ _ _ hl => hl) (fun _ => h.ring hr) ?_
  exact (h.log.store (.inl hown)).congr rfl rfl

theorem Bracketed.next (h : Bracketed b s) (hh : Housed b s) {a : Act} (ha : s.enabled b a = true) :
    Bracketed b (s.next b a) := by
  have hsame : ∀ p d, s.place (.thread p) = .handing d → s.live p = true → s.live p = true := fun _ _ _ hl => hl
  cases a with
  | enter c l serves fits current room =>
    simp only [enabled, mayOffer, Bool.and_eq_true, beq_iff_eq, Bool.or_eq_true, bne_iff_ne, decide_eq_true_eq] at ha
    exact h.chipWriterEnter (canRun_known ha.1) ha.2.1.1 (fun hk => ha.2.1.2.resolve_left (not_not.2 hk)) serves fits
      current room
  | queue c room =>
    obtain ⟨-, l, r, hp, heq⟩ := queue_cases ha
    rw [heq]
    exact h.queueLine hp room
  | take c claimLeft =>
    obtain ⟨-, l, claimed, hp, heq⟩ := take_cases ha
    rw [heq]
    obtain ⟨hin, hn⟩ := h.lineAhead_inside hp
    exact h.lineTake hin hn claimLeft
  | opened c =>
    obtain ⟨-, -, l, t, hp, heq⟩ := opened_cases ha
    have hf := h.fair c
    rw [hp] at hf
    rw [heq]
    exact h.turn (p := .between l t 0) ⟨rfl, rfl, rfl, rfl, rfl⟩ (by rw [hp]; rfl) rfl ⟨Nat.zero_le _, hf⟩ rfl rfl h.ring
      (h.log.congr rfl rfl)
  | put c =>
    obtain ⟨-, l, t, n, hp, hn, -⟩ := put_cases ha
    exact h.putByte hp hn
  | stored c stored =>
    obtain ⟨-, l, t, n, hp⟩ := stored_cases ha
    exact h.storeByte hp stored
  | finish c claimLeft =>
    obtain ⟨-, l, t, n, stalled, hp, heq⟩ := finish_cases ha
    rw [heq]
    exact h.lineEnd hp claimLeft
  | drain c =>
    obtain ⟨-, hr, -⟩ := drain_cases ha
    exact h.push hr _
  | drained c =>
    obtain ⟨-, l, hp, heq⟩ := drained_cases ha
    rw [heq]
    exact h.turn (p := .closing l l.n l.n false) ⟨rfl, rfl, rfl, rfl, rfl⟩ (by rw [hp]; rfl) rfl
      ⟨le_refl _, id, fun _ _ => rfl, fun hk => by cases hk⟩ rfl rfl h.ring (h.log.congr rfl rfl)
  | leave c =>
    obtain ⟨-, l, took, sent, stalled, hp⟩ := leave_cases ha
    exact h.leaveOffer hp
  | txIsr => exact h.push (of_decide_eq_true ha) _
  | recordBegin i =>
    rw [State.next, State.recordBegin]
    split_ifs
    · exact h
    · exact h.stay ⟨rfl, rfl, rfl, rfl, rfl⟩ rfl hsame h.ring (h.log.congr rfl rfl)
  | recordEnd i deliver =>
    obtain ⟨l, w, p, heq⟩ := krecordEnd_eq s i deliver
    rw [State.next, heq]
    exact h.stay ⟨rfl, rfl, rfl, rfl, rfl⟩ rfl hsame h.ring (h.log.congr rfl rfl)
  | ask i claimLeft =>
    obtain ⟨o, w, p, heq, -⟩ := lineTaken_eq b s (.thread i) claimLeft
    rw [State.next, heq]
    exact h.stay ⟨rfl, rfl, rfl, rfl, rfl⟩ rfl hsame h.ring (h.log.congr rfl rfl)
  | parkLine i claimLeft =>
    obtain ⟨o, w, p, heq, -⟩ := lineTaken_eq b s (.thread i) claimLeft
    rw [State.next, heq]
    exact h.stay ⟨rfl, rfl, rfl, rfl, rfl⟩ rfl hsame h.ring (h.log.congr rfl rfl)
  | park i => exact h.stay ⟨rfl, rfl, rfl, rfl, rfl⟩ rfl hsame h.ring (h.log.congr rfl rfl)
  | wake i => exact h.stay ⟨rfl, rfl, rfl, rfl, rfl⟩ rfl hsame h.ring (h.log.congr rfl rfl)
  | publish p =>
    simp only [enabled, Bool.and_eq_true, beq_iff_eq, Bool.not_eq_true'] at ha
    exact h.publish ha.1.1.1 ha.1.1.2 ha.2
  | looked p =>
    simp only [enabled, Bool.and_eq_true, beq_iff_eq] at ha
    exact h.looked ha.1.2 ha.2
  | setUser p free =>
    simp only [enabled, Bool.and_eq_true, beq_iff_eq] at ha
    exact h.setUser ha.2 free
  | driverEnded free =>
    have hdied : Bracketed b { s with driverDied := true } :=
      h.stay ⟨rfl, rfl, rfl, rfl, rfl⟩ rfl hsame h.ring (h.log.congr rfl rfl)
    exact hdied.onDriverDeath free
  | retry free => exact h.onDriverDeath free
  | panic => exact h.kpanicEnter
  | panicUnlocked => exact h.kpanicEnterUnlocked
  | panicWrite => exact h.stay ⟨rfl, rfl, rfl, rfl, rfl⟩ rfl hsame h.ring (h.log.store (.inr rfl))
  | slay i => exact h.stay ⟨rfl, rfl, rfl, rfl, rfl⟩ rfl hsame h.ring (h.log.congr rfl rfl)
  | slayExit i => exact h.slayExit i
  | exit i =>
    obtain ⟨-, hout, -⟩ := hh.exit_out ha
    refine h.exit fun d hd => ?_
    rw [hout] at hd
    cases hd
  | spawn i =>
    simp only [enabled, Bool.and_eq_true, Bool.not_eq_true'] at ha
    exact h.spawn (hh.gone i ha.2).1

end State

theorem Reach.bracketed {b : Build} {ok : State → Act → Prop} {s : State} (h : Reach b ok s) : s.Bracketed b := by
  induction h with
  | boot armed =>
    refine ⟨?_, fun _ => rfl, fun _ hp => absurd rfl hp, (fun hk => by cases hk), (fun hk => by cases hk),
      (fun _ _ hk => by cases hk), fun _ => rfl, (fun hr => absurd hr (Nat.lt_irrefl 0)), fun _ => trivial, ?_⟩
    · have hnone : ∀ n, (Lib.count n fun _ => false) = 0 := fun n => by rw [Lib.count_eq_zero]; intro _ _; rfl
      show (0 : Int) = ((Lib.count b.threads fun _ => false) + Lib.count b.isrs fun _ => false : Nat)
      rw [hnone, hnone]
      rfl
    · exact ⟨(fun _ hw => by cases hw), fun _ ho => by cases ho⟩
  | step hs a ha _ ih => exact ih.next hs.housed ha

open State

theorem slayExit_reclaims {b : Build} {s : State} {p : Nat} (hp : s.publisher = some p) (ho : s.owner = .handingOff) :
    (s.next b (.slayExit p)).owner = .reclaimed ∧ (s.next b (.slayExit p)).publisher = none := by
  obtain ⟨w, l, q, heq⟩ := kconsoleSlain_eq b s p
  obtain ⟨t, v, hf⟩ := heldFlush_eq { s.slainFields b p w l q with publisher := none, owner := .reclaimed } .reclaim
  have hundo : s.kconsoleSlain b p =
      ({ s.slainFields b p w l q with publisher := none, owner := .reclaimed, wire := t, held := v } : State).darkWake :=
    heq.trans ((if_pos ⟨hp, ho⟩).trans (congrArg darkWake hf))
  rw [State.next, State.slayExit, hundo]
  exact ⟨rfl, rfl⟩

/-- In every run: while the driver owns the UART no kernel writer is inside the bracket and none but the panic's own reclaim
stores at the device; the count is that of the contexts inside; a hand-over always has its publisher, whose death in it
reclaims the console; and a line offered while it is published is a record's and held whole, or dropped, while any other is
refused or goes to the device, whole unless the device refuses a byte. -/
theorem device_exclusive {b : Build} {s : State} (h : Reachable b s) :
    (s.owner = .userOwned → s.chipWriters = 0 ∧ ∀ c, inside (s.place c) = false) ∧
      (∀ w ∈ s.wire, w.owner = .userOwned → w.source = .panic) ∧
      (s.chipWriters = (writersIn b s : Int) ∧ 0 ≤ s.chipWriters ∧ ∀ c, inside (s.place c) = true → known b c = true) ∧
      (s.owner = .handingOff → ∃ p d, s.publisher = some p ∧ s.live p = true ∧ s.place (.thread p) = .handing d) ∧
      (∀ p, s.publisher = some p → s.owner = .handingOff →
        (s.next b (.slayExit p)).owner = .reclaimed ∧ (s.next b (.slayExit p)).publisher = none) ∧
      ∀ o ∈ s.offers, FairOffer o := by
  have hb := h.bracketed
  refine ⟨?_, hb.log.wire, ⟨hb.count, ?_, ?_⟩, hb.handing, fun p hp ho => slayExit_reclaims hp ho, hb.log.offers⟩
  · intro ho
    refine ⟨hb.user ho, fun c => ?_⟩
    cases hc : inside (s.place c) with
    | false => rfl
    | true => exact absurd ho (hb.not_user hc)
  · rw [hb.count]
    exact Int.natCast_nonneg _
  · intro c hc
    refine hb.real c fun ho => ?_
    rw [ho] at hc
    cases hc

/-- One thread publishes, a line of the kernel comes, and then a panic. -/
def publishThenPanic : List Act :=
  [.spawn 0, .publish 0, .looked 0, .setUser 0 true, .enter (.isr 0) ⟨1, .plain⟩ false false 0 0, .panic]

def oneThread : Build := ⟨false, 1, 1, by decide⟩

theorem publishThenPanic_reachable : Reachable oneThread (({} : State).run oneThread publishThenPanic).1 :=
  Reachable.run publishThenPanic (Reach.boot true) (by decide)

/-- A line of two bytes on a console without its ring, whose second byte the device refuses. -/
def stallsAtSecond : List Act :=
  [.enter (.isr 0) ⟨2, .plain⟩ false false 0 0, .queue (.isr 0) false, .take (.isr 0) false, .put (.isr 0), .stored (.isr 0) true,
    .put (.isr 0), .stored (.isr 0) false, .finish (.isr 0) false, .leave (.isr 0)]

/-- At the panic of the first run the kernel stored at the driver's device, and the line before it went nowhere; the line of
the second is answered whole and cut. -/
theorem panic_writes_driver_device : (Reachable oneThread (({} : State).run oneThread publishThenPanic).1 ∧
    (∃ w ∈ (({} : State).run oneThread publishThenPanic).1.wire, w.owner = .userOwned) ∧
    ∃ o ∈ (({} : State).run oneThread publishThenPanic).1.offers, 0 < o.line.n ∧ o.took = o.line.n ∧ o.sent = 0 ∧
      o.held = false) ∧
    Reachable oneThread (({ armed := false } : State).run oneThread stallsAtSecond).1 ∧
    ∃ o ∈ (({ armed := false } : State).run oneThread stallsAtSecond).1.offers, o.took = o.line.n ∧ 0 < o.sent ∧
      o.sent < o.line.n :=
  ⟨⟨publishThenPanic_reachable, ⟨⟨.userOwned, .panic⟩, by decide, rfl⟩,
      ⟨⟨1, .plain⟩, true, 1, 0, false, false, false⟩, by decide, by decide⟩,
    Reachable.run stallsAtSecond (Reach.boot false) (by decide),
    ⟨⟨2, .plain⟩, false, 2, 1, false, false, true⟩, by decide, by decide⟩

theorem device_exclusive_publishThenPanic :
    (({} : State).run oneThread publishThenPanic).1.chipWriters =
        (writersIn oneThread (({} : State).run oneThread publishThenPanic).1 : Int) ∧
      0 ≤ (({} : State).run oneThread publishThenPanic).1.chipWriters :=
  have h := device_exclusive publishThenPanic_reachable
  ⟨h.2.2.1.1, h.2.2.1.2.1⟩

end Console
end KickOS

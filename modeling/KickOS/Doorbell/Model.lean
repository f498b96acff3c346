import Mathlib.Tactic

/-! The cross-core doorbell (`arch/common/doorbell_protocol.cc`) and the line operations routed over it
(`kernel/irq/irq_route.cc`).

A core asks another by counting up its request word for it, and the other answers in a service pass: a snapshot of the
requests, the fence, the drain of the routed operations, and then the answers, which are the snapshot's values. A core
waits on the answer words only.

Each step is one access to a cell another core writes or reads, and the memory is sequentially consistent. A core's
send, wait or routed operation is interrupted by a service pass only, from the vector or from a poll, and a pass may
start at any point of it. The words are counts, compared modulo 2^32. -/

namespace KickOS
namespace Doorbell

def word : Nat := 2 ^ 32

inductive LineOp where
  | mask | unmask | clear
  deriving DecidableEq, Repr

/-- `Ask`: what a core has asked another to do, and how many times. -/
structure Ask where
  seq : Nat
  line : Int
  op : LineOp
  deriving DecidableEq, Repr

/-- A routed operation: the core that owns the line, and what is asked of it. -/
structure Routed (n : Nat) where
  owner : Fin n
  line : Int
  op : LineOp
  deriving DecidableEq, Repr

/-- Where a core is in a send, a wait or a routed operation. -/
inductive Prog (n : Nat) where
  | idle
  /-- `line_op_ask`: the line is stored next. -/
  | line (r : Routed n)
  | op (r : Routed n)
  | seq (r : Routed n)
  /-- `arch_ipi_send`: the cores still to be asked. -/
  | bump (rest : List (Fin n)) (cores : Fin n → Bool) (routed : Option (Routed n))
  /-- The raise of the peers. -/
  | raise (cores : Fin n → Bool) (routed : Option (Routed n))
  /-- `arch_ipi_wait`: the cores still to be waited for. -/
  | look (rest : List (Fin n)) (cores : Fin n → Bool) (routed : Option (Routed n))
  | spin (peer : Fin n) (asked : Nat) (rest : List (Fin n)) (cores : Fin n → Bool) (routed : Option (Routed n))

/-- Where a core is in `kickos_doorbell_service`. -/
inductive Pass (n : Nat) where
  | out
  | snapshot (rest : List (Fin n)) (owed : Bool)
  /-- `kickos_irq_route_service`: the cores whose asks are still to be looked at. -/
  | drain (rest : List (Fin n))
  | fetched (sender : Fin n) (seq : Nat) (rest : List (Fin n))
  | lined (sender : Fin n) (seq : Nat) (line : Int) (rest : List (Fin n))
  | ready (sender : Fin n) (seq : Nat) (line : Int) (op : LineOp) (rest : List (Fin n))
  | performed (sender : Fin n) (seq : Nat) (rest : List (Fin n))
  /-- `publish_answers`: the cores still to be answered. -/
  | publish (rest : List (Fin n))
  deriving DecidableEq, Repr

structure St (n : Nat) where
  /-- `g_request[i].seq[t]`. -/
  request : Fin n → Fin n → Nat
  /-- `g_answer[t].seq[i]`. -/
  answer : Fin n → Fin n → Nat
  /-- `g_asked[t].seq[i]`, the snapshot. -/
  asked : Fin n → Fin n → Nat
  /-- `g_ask[i].to[t]`. -/
  ask : Fin n → Fin n → Ask
  /-- `g_ran[t].to[i].seq`. -/
  ran : Fin n → Fin n → Nat
  prog : Fin n → Prog n
  pass : Fin n → Pass n

inductive Act (n : Nat) where
  /-- `arch_ipi_send` is called. -/
  | send (c : Fin n) (cores : Fin n → Bool)
  | bump (c peer : Fin n)
  /-- A core that is not asked. -/
  | skip (c peer : Fin n)
  /-- The loop is over; the caller's own bit is polled for. -/
  | own (c : Fin n) (serviced : Bool)
  | raise (c : Fin n)
  /-- `arch_ipi_wait` is called. -/
  | wait (c : Fin n) (cores : Fin n → Bool)
  | look (c peer : Fin n)
  /-- The answer has not come. -/
  | spin (c : Fin n)
  /-- The answer has come. -/
  | settle (c peer : Fin n)
  | waited (c : Fin n) (routed : Option (Routed n))
  /-- `irq_line_op` is called. -/
  | lineOp (c : Fin n) (line : Int) (op : LineOp) (isr : Bool)
  | storeLine (c : Fin n)
  | storeOp (c : Fin n)
  | storeSeq (c : Fin n)
  /-- A service pass starts. -/
  | service (t : Fin n)
  | load (t sender : Fin n)
  | fence (t : Fin n)
  | fetch (t sender : Fin n)
  | fetchLine (t : Fin n)
  | fetchOp (t : Fin n)
  /-- `line_op_here`, for an ask of `sender`. -/
  | perform (t sender : Fin n) (line : Int) (op : LineOp)
  | storeRan (t : Fin n)
  | drained (t : Fin n)
  | answer (t sender : Fin n)
  | finish (t : Fin n)

def set2 {n : Nat} {α : Type} (f : Fin n → Fin n → α) (i j : Fin n) (v : α) : Fin n → Fin n → α :=
  Function.update f i (Function.update (f i) j v)

/-- Whether `irq_line_op` asks another core: a line with an owner inside the kernel, not this core, and no handler. -/
def route (n : Nat) (lineCore : Int → Int) (c : Fin n) (line : Int) (isr : Bool) : Option (Fin n) :=
  let owner := lineCore line
  if h : 0 ≤ owner ∧ owner.toNat < n then
    let t : Fin n := ⟨owner.toNat, h.2⟩
    if t ≠ c ∧ isr = false then some t else none
  else none

namespace St

variable {n : Nat} (lineCore : Int → Int) (s : St n)

def setProg (c : Fin n) (p : Prog n) : St n := { s with prog := Function.update s.prog c p }

def setPass (t : Fin n) (p : Pass n) : St n := { s with pass := Function.update s.pass t p }

/-- A step of `arch_ipi_send`, `arch_ipi_wait` or `line_op_ask`, with no pass running on its core. -/
def go (s : St n) : Act n → Option (St n)
  | .send c cores =>
    match s.prog c with
    | .idle => some (s.setProg c (.bump (List.finRange n) cores none))
    | _ => none
  | .bump c peer =>
    match s.prog c with
    | .bump (t :: rest) cores routed =>
      if t = peer ∧ cores t then
        some { s.setProg c (.bump rest cores routed) with request := set2 s.request c t (s.request c t + 1) }
      else none
    | _ => none
  | .skip c peer =>
    match s.prog c with
    | .bump (t :: rest) cores routed => if t = peer ∧ cores t = false then some (s.setProg c (.bump rest cores routed)) else none
    | _ => none
  | .own c serviced =>
    match s.prog c with
    | .bump [] cores routed =>
      -- the poll tests the cells first, and its own two are no other core's
      if cores c ∧ serviced then some ((s.setProg c (.raise cores routed)).setPass c (.snapshot (List.finRange n) false))
      else if serviced = false ∧ (cores c = false ∨ s.request c c % word = s.answer c c % word) then
        some (s.setProg c (.raise cores routed))
      else none
    | _ => none
  | .raise c =>
    match s.prog c with
    | .raise _ none => some (s.setProg c .idle)
    | .raise cores (some r) => some (s.setProg c (.look (List.finRange n) cores (some r)))
    | _ => none
  | .wait c cores =>
    match s.prog c with
    | .idle => some (s.setProg c (.look (List.finRange n) cores none))
    | _ => none
  | .look c peer =>
    match s.prog c with
    | .look (t :: rest) cores routed =>
      if t = peer then
        some (s.setProg c (if cores t ∧ t ≠ c then .spin t (s.request c t) rest cores routed else .look rest cores routed))
      else none
    | _ => none
  | .spin c =>
    match s.prog c with
    | .spin t asked _ _ _ => if s.answer t c % word ≠ asked % word then some s else none
    | _ => none
  | .settle c peer =>
    match s.prog c with
    | .spin t asked rest cores routed =>
      if t = peer ∧ s.answer t c % word = asked % word then some (s.setProg c (.look rest cores routed)) else none
    | _ => none
  | .waited c routed =>
    match s.prog c with
    | .look [] _ routed' => if routed' = routed then some (s.setProg c .idle) else none
    | _ => none
  | .lineOp c line op isr =>
    match s.prog c with
    | .idle =>
      match route n lineCore c line isr with
      | some t => some (s.setProg c (.line ⟨t, line, op⟩))
      | none => some s
    | _ => none
  | .storeLine c =>
    match s.prog c with
    | .line r => some ({ s with ask := set2 s.ask c r.owner { s.ask c r.owner with line := r.line } }.setProg c (.op r))
    | _ => none
  | .storeOp c =>
    match s.prog c with
    | .op r => some ({ s with ask := set2 s.ask c r.owner { s.ask c r.owner with op := r.op } }.setProg c (.seq r))
    | _ => none
  | .storeSeq c =>
    match s.prog c with
    | .seq r =>
      some ({ s with ask := set2 s.ask c r.owner { s.ask c r.owner with seq := (s.ask c r.owner).seq + 1 } }.setProg c
        (.bump (List.finRange n) (fun t => decide (t = r.owner)) (some r)))
    | _ => none
  | _ => none

def serve (s : St n) : Act n → Option (St n)
  | .service t =>
    match s.pass t with
    | .out => some (s.setPass t (.snapshot (List.finRange n) false))
    | _ => none
  | .load t sender =>
    match s.pass t with
    | .snapshot (i :: rest) owed =>
      if i = sender then
        some ({ s with asked := set2 s.asked t i (s.request i t) }.setPass t
          (.snapshot rest (owed || decide (s.request i t % word ≠ s.answer t i % word))))
      else none
    | _ => none
  | .fence t =>
    match s.pass t with
    | .snapshot [] true => some (s.setPass t (.drain (List.finRange n)))
    | _ => none
  | .fetch t sender =>
    match s.pass t with
    | .drain (i :: rest) =>
      if i = sender then
        some (s.setPass t (if (s.ask i t).seq % word = s.ran t i % word then .drain rest else .fetched i (s.ask i t).seq rest))
      else none
    | _ => none
  | .fetchLine t =>
    match s.pass t with
    | .fetched i seq rest => some (s.setPass t (.lined i seq (s.ask i t).line rest))
    | _ => none
  | .fetchOp t =>
    match s.pass t with
    | .lined i seq line rest => some (s.setPass t (.ready i seq line (s.ask i t).op rest))
    | _ => none
  | .perform t sender line op =>
    match s.pass t with
    | .ready i seq line' op' rest =>
      if i = sender ∧ line' = line ∧ op' = op then some (s.setPass t (.performed i seq rest)) else none
    | _ => none
  | .storeRan t =>
    match s.pass t with
    | .performed i seq rest => some ({ s with ran := set2 s.ran t i seq }.setPass t (.drain rest))
    | _ => none
  | .drained t =>
    match s.pass t with
    | .drain [] => some (s.setPass t (.publish (List.finRange n)))
    | _ => none
  | .answer t sender =>
    match s.pass t with
    | .publish (i :: rest) =>
      if i = sender then
        let s := s.setPass t (.publish rest)
        some (if s.asked t i % word ≠ s.answer t i % word then { s with answer := set2 s.answer t i (s.asked t i) } else s)
      else none
    | _ => none
  | .finish t =>
    match s.pass t with
    | .snapshot [] false => some (s.setPass t .out)
    | .publish [] => some (s.setPass t .out)
    | _ => none
  | _ => none

/-- The core whose send, wait or routed operation moves. -/
def initiator : Act n → Option (Fin n)
  | .send c _ | .bump c _ | .skip c _ | .own c _ | .raise c | .wait c _ | .look c _ | .spin c | .settle c _
  | .waited c _ | .lineOp c _ _ _ | .storeLine c | .storeOp c | .storeSeq c => some c
  | _ => none

def step (a : Act n) : Option (St n) :=
  match initiator a with
  | some c => if s.pass c = .out then s.go lineCore a else none
  | none => s.serve a

end St

def initial (n : Nat) : St n where
  request := fun _ _ => 0
  answer := fun _ _ => 0
  asked := fun _ _ => 0
  ask := fun _ _ => ⟨0, 0, .mask⟩
  ran := fun _ _ => 0
  prog := fun _ => .idle
  pass := fun _ => .out

/-- A run and the acts it makes; every state it reaches meets `ok`. -/
inductive Run {n : Nat} (lineCore : Int → Int) (ok : St n → Prop) (s : St n) : List (Act n) → St n → Prop
  | refl : Run lineCore ok s [] s
  | step {as : List (Act n)} {u v : St n} {a : Act n} :
    Run lineCore ok s as u → u.step lineCore a = some v → ok v → Run lineCore ok s (as ++ [a]) v

end Doorbell
end KickOS

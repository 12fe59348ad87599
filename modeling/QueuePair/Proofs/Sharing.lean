import QueuePair.Proofs.Decomposition
import QueuePair.Proofs.Holdings
import QueuePair.Proofs.Tally

namespace QueuePair

namespace ObjectOperation

/-- What is done with a mailbox that stays: raising the gate, attaching, the rendezvous, and moving
messages, in any order and as often as threads like. -/
def Shares (g : SetId) : ObjectOperation → Prop
  | .raiseGate m | .attach m | .rendezvous m _ _ | .publish m _ | .consume m _ | .discard m =>
    m.semaphores.set = g
  | _ => False

instance (g : SetId) : DecidablePred (Shares g) := fun op => by
  cases op <;> unfold Shares <;> infer_instance

end ObjectOperation

namespace Call

/-- Whether a call is inside a copy, between taking the gate and giving it back. -/
def copying : Call → Nat
  | .publishing _ _ s => s.gate
  | .collecting _ _ s => s.gate
  | _ => 0

/-- Whether a call in the rendezvous has taken the gate and not yet given it back. -/
def restoring : Call → Nat
  | .rendezvous _ _ _ s => s.gate
  | _ => 0

def entering : Call → Nat
  | .attaching _ .raiseCount => 1
  | _ => 0

def keeps : Call → Bool
  | .rendezvous _ restore _ _ => !restore
  | _ => false

def attaches : Call → Bool
  | .attaching .. => true
  | _ => false

def raises : Call → Bool
  | .changing _ changes => changes = [⟨Mailbox.gate, 1⟩]
  | .attaching .. => true
  | _ => false

end Call

namespace Task

def calls (f : Call → Nat) (task : Task) : Nat :=
  (task.call?.map f).getD 0

end Task

namespace Thread

def change? (th : Thread) : Option (SetId × List Change) :=
  match th.next with
  | .perform (.system (.change set changes _)) _ => some (set, changes)
  | _ => none

def succeeded (f : Call → Bool) (th : Thread) : Nat :=
  if th.origin.call?.any f ∧ th.outcome?.any Outcome.isOk then 1 else 0

def copying (th : Thread) : Nat :=
  th.task.calls Call.copying

def restoring (th : Thread) : Nat :=
  th.task.calls Call.restoring

def kept (th : Thread) : Nat :=
  th.succeeded Call.keeps

def raised (th : Thread) : Nat :=
  th.succeeded Call.raises + th.task.calls Call.entering

def attached (th : Thread) : Nat :=
  th.succeeded Call.attaches

def taken (th : Thread) : Nat :=
  th.copying + th.restoring + th.kept

end Thread

namespace Mailbox.Rendezvous

def Fair : Bool → Rendezvous → Prop
  | false, .takeGate _ | false, .awaitZero _ | false, .giveBack | false, .undo _ => False
  | true, .takeLast _ => False
  | true, .undo e => e = .timeout
  | _, _ => True

end Mailbox.Rendezvous

def Task.Fair (origin : Task) (out : Outcome) : Prop :=
  ∀ m restore span, origin = .call none (.rendezvous m restore span .clock) →
    out = .returned (.ok .unit) ∨ out = .returned (.error .connectTimeout) ∨ out = .panicked

/-- The threads that share a mailbox. -/
inductive Thread.Shares (g : SetId) : Thread → Prop
  | raising : Shares g ⟨.call none (.changing g [⟨Mailbox.gate, 1⟩]),
      .call none (.changing g [⟨Mailbox.gate, 1⟩]), []⟩
  | attaching {m : Mailbox} {s : Mailbox.Attaching} : m.semaphores.set = g →
      Shares g ⟨.call none (.attaching m .raiseGate), .call none (.attaching m s), []⟩
  | publishing {m : Mailbox} {payload : Bytes} {s : Mailbox.Publishing} : m.semaphores.set = g →
      Shares g ⟨.call none (.publishing m payload .takeVacancy),
        .call none (.publishing m payload s), []⟩
  | collecting {m : Mailbox} {into : Option Buffer} {s : Mailbox.Collecting} :
      m.semaphores.set = g →
      Shares g ⟨.call none (.collecting m into .takeGate), .call none (.collecting m into s), []⟩
  | rendezvous {m : Mailbox} {restore : Bool} {span : Span} {s : Mailbox.Rendezvous} :
      m.semaphores.set = g → s.Fair restore →
      Shares g ⟨.call none (.rendezvous m restore span .clock),
        .call none (.rendezvous m restore span s), []⟩
  | ended {origin : Task} {out : Outcome} : origin.Fair out → Shares g ⟨origin, .ended out, []⟩

def Bounded (values : List Nat) : Prop :=
  ∀ i, values.getD i 0 ≤ semaphoreMax

theorem Bounded.set {values : List Nat} (h : Bounded values) {i n : Nat} (hn : n ≤ semaphoreMax) :
    Bounded (values.set i n) := by
  intro j
  have hj := h j
  simp only [List.getD_eq_getElem?_getD, List.getElem?_set] at hj ⊢
  split
  · split <;> simp [hn]
  · exact hj

theorem Bounded.attempt {values after : List Nat} {changes : List Change} (h : Bounded values)
    (ha : QueuePair.attempt values changes = .done after) : Bounded after := by
  induction changes generalizing values with
  | nil =>
    simp only [QueuePair.attempt, Attempt.done.injEq] at ha
    exact ha ▸ h
  | cons c cs ih =>
    simp only [QueuePair.attempt] at ha
    split at ha
    · split at ha
      · exact ih h ha
      · cases ha
    · split at ha
      · cases ha
      · split at ha
        · cases ha
        · exact ih (h.set (by omega)) ha

def Lowers (changes : List Change) : Prop :=
  ∀ values, Bounded values → attempt values changes ≠ .overflows

namespace Thread

variable {g : SetId} {th th' : Thread}

structure Even (th th' : Thread) : Prop where
  taken : th'.taken = th.taken
  raised : th'.raised = th.raised
  attached : th'.attached = th.attached

/-- A change of the semaphores of a mailbox, and where its answers lead. -/
structure Trades (g : SetId) (th : Thread) (changes : List Change) (d : Option Instant)
    (next : Except Error Unit → Thread) : Prop where
  granted : (next (.ok ())).Shares g
  gate : (added Mailbox.gate changes + (next (.ok ())).taken + th.raised : Int) =
    th.taken + (next (.ok ())).raised
  count : (added Mailbox.attached changes + th.attached : Int) = (next (.ok ())).attached
  late : d.isSome = true → (next (.error .timeout)).Shares g ∧ Even th (next (.error .timeout))
  waits : (∃ values, attempt values changes = .blocks) → Lowers changes

/-- What a thread that shares a mailbox is about to do. -/
inductive Due (g : SetId) (th : Thread) : Prop
  | change {changes : List Change} {d : Option Instant} {next : Except Error Unit → Thread} :
      th.next = .perform (.system (.change g changes d)) next →
      th.Trades g changes d next → Due g th
  | clock {span : Span} {next : Option Instant → Thread} : th.next = .perform (.clock span) next →
      (∀ a, (next a).Shares g ∧ Even th (next a)) → Due g th
  | store {file : FileId} {payload : Bytes} {next : Unit → Thread} :
      th.next = .perform (.system (.storeRecord file payload)) next →
      (∀ a, (next a).Shares g ∧ Even th (next a)) → Due g th
  | load {file : FileId} {capacity : Nat} {next : Except Error Bytes → Thread} :
      th.next = .perform (.system (.loadRecord file capacity)) next →
      (∀ a, (next a).Shares g ∧ Even th (next a)) → Due g th
  | panic : th.next = .panic → th.task.owner? = none → th.unwound.Shares g →
      Even th th.unwound → Due g th
  | halt : th.next = .halt → Due g th

end Thread

theorem lowers_take (i : Nat) : Lowers [⟨i, -1⟩] := by
  intro values hb
  have hi := hb i
  have hone : (-1 : Int) ≠ 0 := by decide
  simp only [attempt, if_neg hone]
  split
  · simp
  · split
    · omega
    · simp

theorem lowers_zero (i : Nat) : Lowers [⟨i, 0⟩] := by
  intro values hb
  simp only [attempt, if_true]
  split <;> simp

theorem lowers_last (i : Nat) : Lowers [⟨i, -1⟩, ⟨i, 0⟩] := by
  intro values hb
  have hi := hb i
  have hone : (-1 : Int) ≠ 0 := by decide
  simp only [attempt, if_neg hone, if_true]
  split
  · simp
  · split
    · omega
    · split <;> simp

theorem lowers_both (i : Nat) : Lowers [⟨i, -2⟩, ⟨i, 2⟩] := by
  intro values hb
  have hi := hb i
  have htwo : (-2 : Int) ≠ 0 := by decide
  have htwo' : (2 : Int) ≠ 0 := by decide
  simp only [attempt, if_neg htwo, if_neg htwo']
  split
  · simp
  · rename_i hge
    split
    · omega
    · by_cases hlt : i < values.length
      · simp only [List.getD_eq_getElem?_getD, List.getElem?_set_self hlt,
          Option.getD_some] at hi hge ⊢
        rw [if_neg (by omega), if_neg (by omega)]
        simp
      · have hz : values.getD i 0 = 0 := by simp [Nat.le_of_not_lt hlt]
        omega

namespace Thread

variable {g : SetId} {th : Thread}

theorem raise_waits (i : Nat) (h : ∃ values, attempt values [⟨i, 1⟩] = .blocks) :
    Lowers [⟨i, 1⟩] := by
  obtain ⟨_, hv⟩ := h
  exact absurd hv raise_ne_blocks

theorem Shares.due (h : th.Shares g) : Due g th := by
  cases h with
  | raising =>
    exact .change rfl ⟨.ended (by rintro _ _ _ ⟨⟩), rfl, rfl, (by rintro ⟨⟩), raise_waits _⟩
  | @attaching m s hm =>
    subst hm
    cases s with
    | raiseGate => exact .change rfl ⟨.attaching rfl, rfl, rfl, (by rintro ⟨⟩), raise_waits _⟩
    | raiseCount =>
      exact .change rfl ⟨.ended (by rintro _ _ _ ⟨⟩), rfl, rfl, (by rintro ⟨⟩), raise_waits _⟩
  | @publishing m payload s hm =>
    subst hm
    cases s with
    | takeVacancy | takeGate =>
      exact .change rfl ⟨.publishing rfl, rfl, rfl, (by rintro ⟨⟩), fun _ => lowers_take _⟩
    | copy => exact .store rfl fun a => ⟨.publishing rfl, rfl, rfl, rfl⟩
    | giveGate =>
      exact .change rfl ⟨.ended (by rintro _ _ _ ⟨⟩), rfl, rfl, (by rintro ⟨⟩), raise_waits _⟩
  | @collecting m into s hm =>
    subst hm
    cases s with
    | takeGate =>
      exact .change rfl ⟨.collecting rfl, rfl, rfl, (by rintro ⟨⟩), fun _ => lowers_take _⟩
    | copy => exact .load rfl fun a => ⟨.collecting rfl, rfl, rfl, rfl⟩
    | giveGate c =>
      exact .change rfl ⟨.collecting rfl, rfl, rfl, (by rintro ⟨⟩), raise_waits _⟩
    | giveVacancy c =>
      exact .change rfl ⟨.ended (by rintro _ _ _ ⟨⟩), rfl, rfl, (by rintro ⟨⟩), raise_waits _⟩
  | @rendezvous m restore span s hm hs =>
    subst hm
    cases s with
    | clock =>
      refine .clock rfl fun a => ?_
      cases a with
      | none | some => exact ⟨.rendezvous rfl (by cases restore <;> trivial), rfl, rfl, rfl⟩
    | overflowed =>
      exact .panic rfl rfl (.ended fun _ _ _ _ => .inr (.inr rfl)) ⟨rfl, rfl, rfl⟩
    | awaitBoth d =>
      have hlate : (Task.call none (.rendezvous m restore span .clock)).Fair
          (.returned (.error .connectTimeout)) := fun _ _ _ _ => .inr (.inl rfl)
      cases restore with
      | false =>
        exact .change rfl ⟨.rendezvous rfl trivial, rfl, rfl,
          fun _ => ⟨.ended hlate, rfl, rfl, rfl⟩, fun _ => lowers_both _⟩
      | true =>
        exact .change rfl ⟨.rendezvous rfl trivial, rfl, rfl,
          fun _ => ⟨.ended hlate, rfl, rfl, rfl⟩, fun _ => lowers_both _⟩
    | takeGate d =>
      cases restore with
      | false => exact hs.elim
      | true =>
        exact .change rfl ⟨.rendezvous rfl trivial, rfl, rfl,
          fun _ => ⟨.ended fun _ _ _ _ => .inr (.inl rfl), rfl, rfl, rfl⟩, fun _ => lowers_take _⟩
    | awaitZero d =>
      cases restore with
      | false => exact hs.elim
      | true =>
        exact .change rfl ⟨.rendezvous rfl trivial, rfl, rfl,
          fun _ => ⟨.rendezvous rfl rfl, rfl, rfl, rfl⟩, fun _ => lowers_zero _⟩
    | giveBack =>
      cases restore with
      | false => exact hs.elim
      | true =>
        exact .change rfl ⟨.ended fun _ _ _ _ => .inl rfl, rfl, rfl, (by rintro ⟨⟩), raise_waits _⟩
    | undo e =>
      cases restore with
      | false => exact hs.elim
      | true =>
        -- the time limit is all that can have kept the gate from zero
        obtain rfl : e = .timeout := hs
        exact .change rfl ⟨.ended fun _ _ _ _ => .inr (.inl rfl), rfl, rfl, (by rintro ⟨⟩),
          raise_waits _⟩
    | takeLast d =>
      cases restore with
      | true => exact hs.elim
      | false =>
        exact .change rfl ⟨.ended fun _ _ _ _ => .inl rfl, rfl, rfl,
          fun _ => ⟨.ended fun _ _ _ _ => .inr (.inl rfl), rfl, rfl, rfl⟩, fun _ => lowers_last _⟩
  | ended => exact .halt rfl

theorem Shares.trades {set : SetId} {changes : List Change} {d : Option Instant}
    {next : Except Error Unit → Thread} (h : th.Shares g)
    (hn : th.next = .perform (.system (.change set changes d)) next) :
    set = g ∧ th.Trades g changes d next := by
  have hc : th.change? = some (set, changes) := by simp [change?, hn]
  cases h.due with
  | change hn' hd =>
    cases hn.symm.trans hn'
    exact ⟨rfl, hd⟩
  | clock hn' | store hn' | load hn' | panic hn' | halt hn' => simp [change?, hn'] at hc

/-- A rendezvous that is over came back well or too late, unless the clock could not show its time
limit. It has nothing unless it came back well. -/
theorem Shares.rendezvous_over {m : Mailbox} {restore : Bool} {span : Span} {out : Outcome}
    (h : th.Shares g) (ho : th.origin = .call none (.rendezvous m restore span .clock))
    (hout : th.outcome? = some out) :
    (out = .returned (.ok .unit) ∨ out = .returned (.error .connectTimeout) ∨ out = .panicked) ∧
      (out ≠ .returned (.ok .unit) → th.taken = 0 ∧ th.raised = 0) := by
  cases h with
  | ended hf =>
    cases hout
    cases ho
    have hcases := hf m restore span rfl
    refine ⟨hcases, fun hne => ?_⟩
    obtain rfl | rfl := hcases.resolve_left hne <;> cases restore <;> exact ⟨rfl, rfl⟩
  | raising | attaching | publishing | collecting | rendezvous => cases hout

theorem tally_taken (ths : List Thread) :
    tally taken ths = tally copying ths + tally restoring ths + tally kept ths := by
  induction ths with
  | nil => rfl
  | cons th ths ih =>
    simp only [tally, List.map_cons, List.sum_cons, taken] at ih ⊢
    omega

end Thread

end QueuePair

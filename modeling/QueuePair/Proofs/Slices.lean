import QueuePair.Proofs.Execution
import QueuePair.Proofs.Gauge
import QueuePair.Proofs.Record

namespace QueuePair

namespace File

theorem length_read (f : File) (offset count : Nat) : (f.read offset count).length = count := by
  simp only [read, List.length_append, List.length_take, List.length_replicate]
  omega

theorem write_write (f : File) (front back : Bytes) :
    (f.write 0 front).write front.length back = f.write 0 (front ++ back) := by
  simp [write, List.drop_drop]

end File

namespace Mailbox

def mapping (m : Mailbox) : Mapping :=
  ⟨m.file, Record.headerSize + m.capacity, m.path⟩

/-- Reading a message slice by slice. There is nothing if a slice does not lie in the mapping. -/
def copyOut (m : Mailbox) (k : Kernel) : Option (Except Error Bytes) := do
  let head ← m.mapping.read? k 0 Record.headerSize
  let n := Record.headerValue head
  if n > m.capacity then return .error (.ipc (.recordSize n m.capacity))
  let payload ← m.mapping.read? k Record.headerSize n
  return .ok payload

/-- Writing a message slice by slice. There is nothing if a slice does not lie in the mapping. -/
def copyIn (m : Mailbox) (k : Kernel) (payload : Bytes) : Option Kernel := do
  let k ← m.mapping.write? k 0 (Record.header (UInt32.ofNat payload.length))
  m.mapping.write? k Record.headerSize payload

def fileIn (m : Mailbox) (k : Kernel) : File :=
  (k.files.file? m.file).getD .empty

variable {m : Mailbox} {k : Kernel}

theorem copyOut_eq (m : Mailbox) (k : Kernel) :
    m.copyOut k = some (Record.load (m.fileIn k) m.capacity) := by
  have hhead : m.mapping.read? k 0 Record.headerSize =
      some ((m.fileIn k).read 0 Record.headerSize) := by
    rw [Mapping.read?, if_pos (by simp [mapping])]
    rfl
  simp only [copyOut, hhead, Option.bind_eq_bind, Option.bind_some, Record.load, Record.size]
  split
  · rfl
  · rename_i hle
    have hpayload : ∀ n, n ≤ m.capacity → m.mapping.read? k Record.headerSize n =
        some ((m.fileIn k).read Record.headerSize n) := fun n hn => by
      rw [Mapping.read?, if_pos (by simpa [mapping] using hn)]
      rfl
    rw [hpayload _ (Nat.not_lt.mp hle)]
    rfl

theorem copyIn_eq {payload : Bytes} (h : payload.length ≤ m.capacity) :
    m.copyIn k payload = some
    { k with files := k.files.modify m.file (Record.store · payload) } := by
  have hwrites : (fun f : File => (f.write 0 (Record.header (UInt32.ofNat payload.length))).write
      Record.headerSize payload) = (Record.store · payload) := by
    funext f
    exact f.write_write (Record.header _) payload
  simp only [copyIn, Mapping.write?, mapping, Record.length_header, Nat.zero_add,
    Nat.le_add_right, if_true, Option.bind_eq_bind, Option.bind_some, Nat.add_le_add_iff_left, h]
  rw [← hwrites]
  simp [FileTree.modify, List.modify_modify_eq, Function.comp_def]

end Mailbox

/-- A system call with its answer. -/
structure Answered where
  {α : Type}
  call : SystemCall α
  answer : α

section

variable {σ ρ : Type} {next : σ → Move (Flow σ ρ)} {t : ThreadId}

/-- What a routine gives back if its calls get these answers, whatever others do in between. -/
inductive Traces (next : σ → Move (Flow σ ρ)) : Flow σ ρ → List Answered → ρ → Prop
  | done {r : ρ} : Traces next (.done r) [] r
  | call {s : σ} {α : Type} {c : SystemCall α} {g : α → Flow σ ρ} {a : α} {l : List Answered}
    {r : ρ} :
      next s = .call c g → Traces next (g a) l r → Traces next (.more s) (⟨c, a⟩ :: l) r

theorem Traces.of_call {s : σ} {α : Type} {c : SystemCall α} {g : α → Flow σ ρ} {l : List Answered}
    {r : ρ} (h : Traces next (.more s) l r) (hn : next s = .call c g) :
    ∃ a l', l = ⟨c, a⟩ :: l' ∧ Traces next (g a) l' r := by
  cases h with
  | call hn' hrest =>
    rw [hn'] at hn
    cases hn
    exact ⟨_, _, rfl, hrest⟩

/-- What a routine makes of the system, and its result, if each of its calls is answered at once.
Others whose waits end by that are moved on; besides, nobody does anything. -/
inductive Conducts (t : ThreadId) (next : σ → Move (Flow σ ρ)) :
    Kernel → Flow σ ρ → List Answered → Kernel → ρ → Prop
  | done {k : Kernel} {r : ρ} : Conducts t next k (.done r) [] k r
  | call {k u v : Kernel} {s : σ} {α : Type} {c : SystemCall α} {g : α → Flow σ ρ} {a : α}
      {ends : List Completion} {l : List Answered} {r : ρ} : next s = .call c g →
      k.call t c = ⟨u, ends, some a⟩ → Conducts t next u (g a) l v r →
      Conducts t next k (.more s) (⟨c, a⟩ :: l) v r

end

def Waiter.Takes (q : Waiter) (i : Nat) : Prop :=
  ∀ c ∈ q.changes, c.index = i → c.delta ≤ 0

instance (q : Waiter) (i : Nat) : Decidable (q.Takes i) :=
  inferInstanceAs (Decidable (∀ c ∈ q.changes, c.index = i → c.delta ≤ 0))

theorem Waiter.Takes.added {q : Waiter} {i : Nat} (h : q.Takes i) : added i q.changes ≤ 0 := by
  unfold Takes at h
  generalize q.changes = cs at h
  induction cs with
  | nil => exact Int.le_refl 0
  | cons c cs ih =>
    have hrest := ih fun c hc => h c (List.mem_cons_of_mem _ hc)
    rw [added_cons]
    split
    · have hc := h c List.mem_cons_self ‹_›
      omega
    · omega

theorem attempt_one {l : List Nat} {i n : Nat} {d : Int} (hd : d ≠ 0)
    (hn : (l.getD i 0 : Int) + d = n) (hm : n ≤ semaphoreMax) :
    attempt l [⟨i, d⟩] = .done (l.set i n) := by
  simp only [attempt, if_neg hd, hn]
  rw [if_neg (by omega), if_neg (by omega), Int.toNat_natCast]

namespace SemaphoreSet

theorem Serves.getD_le {values after : List Nat} {ws rest : List Waiter} {ends : List Completion}
    (h : Serves values ws after rest ends) {i : Nat} (hi : i < values.length)
    (hw : ∀ q ∈ ws, q.Takes i) :
    after.length = values.length ∧ after.getD i 0 ≤ values.getD i 0 := by
  induction h with
  | stop => exact ⟨rfl, Nat.le_refl _⟩
  | grant q hq ha _ ih =>
    obtain ⟨hlen, hval⟩ := attempt_spec ha
    have hsum := hval i hi
    have htakes := (hw q hq).added
    obtain ⟨hlen', hle⟩ := ih (hlen ▸ hi) fun q hq => hw q (List.mem_of_mem_erase hq)
    exact ⟨hlen'.trans hlen, by omega⟩
  | refuse q _ _ _ ih => exact ih hi fun q hq => hw q (List.mem_of_mem_erase hq)

/-- What a collection needs of the semaphores: there are enough, the gate and the vacancy are at
most this high, and nobody who waits will raise them. -/
structure AtMost (s : SemaphoreSet) (g v : Nat) : Prop where
  count : Mailbox.semaphoreCount ≤ s.values.length
  gate : s.values.getD Mailbox.gate 0 ≤ g
  vacancy : s.values.getD Mailbox.vacancy 0 ≤ v
  takes : ∀ q ∈ s.waiters, q.Takes Mailbox.gate ∧ q.Takes Mailbox.vacancy

theorem AtMost.assign {s : SemaphoreSet} {values : List Nat} {g v : Nat}
    (h : ({ s with values } : SemaphoreSet).AtMost g v) : (s.assign values).1.AtMost g v := by
  have hs := serves_serve s.waiters.length values s.waiters
  have hlen : Mailbox.semaphoreCount ≤ values.length := h.count
  obtain ⟨hl, hgate⟩ := hs.getD_le (i := Mailbox.gate) (Nat.lt_of_lt_of_le (by decide) hlen)
    fun q hq => (h.takes q hq).1
  obtain ⟨-, hvacancy⟩ := hs.getD_le (i := Mailbox.vacancy) (Nat.lt_of_lt_of_le (by decide) hlen)
    fun q hq => (h.takes q hq).2
  exact ⟨hl ▸ hlen, Nat.le_trans hgate h.gate,
    Nat.le_trans hvacancy h.vacancy, fun q hq => h.takes q (hs.sublist.subset hq)⟩

theorem AtMost.set_gate {s : SemaphoreSet} {g v : Nat} (h : s.AtMost g v) (n : Nat) :
    ({ s with values := s.values.set Mailbox.gate n } : SemaphoreSet).AtMost n v where
  count := by simpa using h.count
  gate := by
    have hlt : Mailbox.gate < s.values.length := Nat.lt_of_lt_of_le (by decide) h.count
    simp [List.getD_eq_getElem?_getD, hlt]
  vacancy := by
    have hne : Mailbox.gate ≠ Mailbox.vacancy := by decide
    simpa [List.getD_eq_getElem?_getD, List.getElem?_set_ne hne] using h.vacancy
  takes := h.takes

end SemaphoreSet

theorem Kernel.call_change_done {k : Kernel} {t : ThreadId} {set : SetId} {s : SemaphoreSet}
    {changes : List Change} {values : List Nat} (hs : k.live? set = some s)
    (ha : attempt s.values changes = .done values) (d : Option Instant) :
    k.call t (.change set changes d) =
      ⟨k.putSet set (s.assign values).1, (s.assign values).2, some (.ok ())⟩ := by
  simp only [call, change, hs, ha]

namespace Mailbox

/-- Collecting into a buffer, or to discard the message. -/
def collect (m : Mailbox) : Option Buffer → ObjectOperation
  | some b => .consume m b
  | none => .discard m

/-- The calls of a collection that takes the gate, reads, gives the gate back, and frees the
mailbox. -/
def collection (m : Mailbox) (r : Except Error Bytes) : List Answered :=
  [⟨.change m.semaphores.set [⟨gate, -1⟩] none, .ok ()⟩, ⟨.loadRecord m.file m.capacity, r⟩,
    ⟨.change m.semaphores.set [⟨gate, 1⟩] none, .ok ()⟩,
    ⟨.change m.semaphores.set [⟨vacancy, 1⟩] none, .ok ()⟩]

/-- What may be collected from a file under a capacity. -/
inductive Collected.From (f : File) (capacity : Nat) (into : Option Buffer) : Collected → Prop
  -- the size that the file claims is impossible
  | impossible {n : Nat} : Record.headerValue (f.read 0 Record.headerSize) = n → capacity < n →
      From f capacity into ⟨into, .error (.ipc (.recordSize n capacity))⟩
  | tooLarge {n : Nat} {b : Buffer} : Record.headerValue (f.read 0 Record.headerSize) = n →
      n ≤ capacity → into = some b → b.limit < n →
      From f capacity into ⟨into, .error (.frameTooLarge n b.limit)⟩
  | received {n : Nat} {b c : Buffer} : Record.headerValue (f.read 0 Record.headerSize) = n →
      n ≤ capacity → into = some b → c.payload = f.read Record.headerSize n →
      c.limit = b.limit → From f capacity into ⟨some c, .ok n⟩
  | discarded {n : Nat} : Record.headerValue (f.read 0 Record.headerSize) = n → n ≤ capacity →
      into = none → From f capacity into ⟨none, .ok n⟩

variable {m : Mailbox} {k : Kernel} {t : ThreadId}

theorem ofObject_collect (m : Mailbox) (into : Option Buffer) :
    Call.ofObject (m.collect into) = .more (.collecting m into .takeGate) := by
  cases into <;> rfl

theorem Collected.from_load (f : File) (capacity : Nat) (into : Option Buffer) :
    Collected.From f capacity into (.ofMessage into (Record.load f capacity)) := by
  simp only [Record.load, Record.size]
  split
  · rename_i hgt
    exact .impossible rfl hgt
  · rename_i hle
    have hle := Nat.not_lt.mp hle
    have hlen := f.length_read Record.headerSize
    simp only [Except.map, ofMessage]
    cases into with
    | none =>
      simp only [hlen]
      exact .discarded rfl hle rfl
    | some b =>
      simp only [Buffer.fill, hlen]
      by_cases hfits : Record.headerValue (f.read 0 Record.headerSize) ≤ b.limit
      · simp only [dif_pos hfits]
        exact .received rfl hle rfl rfl rfl
      · simp only [dif_neg hfits]
        exact .tooLarge rfl hle rfl (Nat.lt_of_not_le hfits)

/-- Whatever others do in between: a collection makes these four calls, or ends with the error of a
change that failed. -/
theorem traces_collection {into : Option Buffer} {l : List Answered} {out : Result}
    (h : Traces Call.next (Call.ofObject (m.collect into)) l out) :
    (∃ r, l = m.collection r ∧ out = Call.received (.ofMessage into r)) ∨
      ∃ cs e b, (⟨.change m.semaphores.set cs none, .error e⟩ : Answered) ∈ l ∧
        out = Call.received ⟨b, .error e⟩ := by
  rw [ofObject_collect] at h
  obtain ⟨taken, l₁, rfl, h₁⟩ := h.of_call rfl
  cases taken with
  | error e =>
    cases h₁
    exact .inr ⟨_, e, _, .head _, rfl⟩
  | ok u =>
    obtain ⟨r, l₂, rfl, h₂⟩ := h₁.of_call rfl
    obtain ⟨given, l₃, rfl, h₃⟩ := h₂.of_call rfl
    cases given with
    | error e =>
      cases h₃
      exact .inr ⟨_, e, _, .tail _ (.tail _ (.head _)), rfl⟩
    | ok u =>
      obtain ⟨freed, l₄, rfl, h₄⟩ := h₃.of_call rfl
      cases freed with
      | error e =>
        cases h₄
        exact .inr ⟨_, e, _, .tail _ (.tail _ (.tail _ (.head _))), rfl⟩
      | ok u =>
        cases h₄
        exact .inl ⟨r, rfl, rfl⟩

def freed (s : SemaphoreSet) : SemaphoreSet :=
  let taken := (s.assign (s.values.set gate (s.values.getD gate 0 - 1))).1
  let given := (taken.assign (taken.values.set gate (taken.values.getD gate 0 + 1))).1
  (given.assign (given.values.set vacancy (given.values.getD vacancy 0 + 1))).1

theorem freed_of_alone {s : SemaphoreSet} (hw : s.waiters = []) (hg : 0 < s.values.getD gate 0) :
    freed s = { s with values := s.values.set vacancy (s.values.getD vacancy 0 + 1) } := by
  obtain ⟨key, values, waiters, removed⟩ := s
  subst hw
  cases values with
  | nil => simp at hg
  | cons g values =>
    have hg : 0 < g := hg
    simp only [freed, World.assign_nil]
    simp [gate, vacancy, Nat.sub_add_cancel hg]

/-- While nobody else does anything, a collection at a set that is not removed, whose gate is free
and whose vacancy can be raised, makes its four calls. -/
theorem conducts_collection (into : Option Buffer) {s : SemaphoreSet}
    (hs : k.live? m.semaphores.set = some s)
    (hb : s.AtMost (s.values.getD gate 0) (s.values.getD vacancy 0))
    (hg : 0 < s.values.getD gate 0) (hmax : s.values.getD gate 0 ≤ semaphoreMax)
    (hv : s.values.getD vacancy 0 < semaphoreMax) :
    Conducts t Call.next k (Call.ofObject (m.collect into))
      (m.collection (Record.load (m.fileIn k) m.capacity)) (k.putSet m.semaphores.set (freed s))
      (Call.received (.ofMessage into (Record.load (m.fileIn k) m.capacity))) := by
  rw [ofObject_collect]
  have hremoved := (Kernel.live?_eq_some.mp hs).2
  let s₁ := (s.assign (s.values.set gate (s.values.getD gate 0 - 1))).1
  have hb₁ : s₁.AtMost (s.values.getD gate 0 - 1) (s.values.getD vacancy 0) :=
    (hb.set_gate _).assign
  have hs₁ := Kernel.live?_putSet_self hs (r := s₁) hremoved
  let s₂ := (s₁.assign (s₁.values.set gate (s₁.values.getD gate 0 + 1))).1
  have hb₂ : s₂.AtMost (s₁.values.getD gate 0 + 1) (s.values.getD vacancy 0) :=
    (hb₁.set_gate _).assign
  have hs₂ := Kernel.live?_putSet_self hs₁ (r := s₂) hremoved
  have hg₁ := hb₁.gate
  have hv₂ := hb₂.vacancy
  have htake := attempt_one (l := s.values) (i := gate) (d := -1)
    (n := s.values.getD gate 0 - 1) (by decide) (by omega) (by omega)
  have hgive := attempt_one (l := s₁.values) (i := gate) (d := 1)
    (n := s₁.values.getD gate 0 + 1) (by decide) (by omega) (by omega)
  have hfree := attempt_one (l := s₂.values) (i := vacancy) (d := 1)
    (n := s₂.values.getD vacancy 0 + 1) (by decide) (by omega) (by omega)
  have hput : ((k.putSet m.semaphores.set s₁).putSet m.semaphores.set s₂).putSet m.semaphores.set
      (freed s) = k.putSet m.semaphores.set (freed s) := by
    simp [Kernel.putSet]
  refine .call rfl (Kernel.call_change_done hs htake none) ?_
  refine .call rfl rfl ?_
  refine .call rfl (Kernel.call_change_done hs₁ hgive none) ?_
  refine .call rfl (Kernel.call_change_done hs₂ hfree none) ?_
  exact hput ▸ .done

/-- Collecting from a mailbox whatever stands in its file. At a set that is not removed, whose gate
is free and whose vacancy can be raised, and at which nobody waits to raise them, every copy stays
within the mapping, and the collection ends in one of four ways: the size in the file is impossible,
the message is too large for the buffer, it is in the buffer, or its size is reported and nothing
kept. In each of them the gate was taken and given back once, the vacancy was raised once, and the
files are as before. Whatever others do in between, a collection that ends otherwise ends with the
error of a change that failed. -/
theorem collecting_any_record (t : ThreadId) (m : Mailbox) (into : Option Buffer) {k : Kernel}
    {s : SemaphoreSet} (hs : k.live? m.semaphores.set = some s)
    (hcount : semaphoreCount ≤ s.values.length) (hg : 0 < s.values.getD gate 0)
    (hmax : s.values.getD gate 0 ≤ semaphoreMax) (hv : s.values.getD vacancy 0 < semaphoreMax)
    (hw : ∀ q ∈ s.waiters, q.Takes gate ∧ q.Takes vacancy) :
    (∀ l out, Traces Call.next (Call.ofObject (m.collect into)) l out →
      (∃ r, l = m.collection r ∧ out = Call.received (.ofMessage into r)) ∨
        ∃ cs e b, (⟨.change m.semaphores.set cs none, .error e⟩ : Answered) ∈ l ∧
          out = Call.received ⟨b, .error e⟩) ∧
    ∃ r c k', m.copyOut k = some r ∧ Collected.From (m.fileIn k) m.capacity into c ∧
      Conducts t Call.next k (Call.ofObject (m.collect into)) (m.collection r) k'
        (Call.received c) ∧ k'.files = k.files ∧
      (s.waiters = [] → k' = k.putSet m.semaphores.set
        { s with values := s.values.set vacancy (s.values.getD vacancy 0 + 1) }) := by
  have hb : s.AtMost (s.values.getD gate 0) (s.values.getD vacancy 0) :=
    ⟨hcount, Nat.le_refl _, Nat.le_refl _, hw⟩
  refine ⟨fun l out => traces_collection, _, _, _, m.copyOut_eq k,
    Collected.from_load (m.fileIn k) m.capacity into,
    conducts_collection into hs hb hg hmax hv, rfl, fun hnil => ?_⟩
  rw [freed_of_alone hnil hg]

/-- A file that claims more bytes than any message has, while a sender waits for the mailbox. -/
def overstated : Kernel :=
  ⟨[⟨1, [1, 0, 2], [⟨7, [⟨vacancy, -1⟩]⟩], false⟩],
    ⟨[(["m"], .file 0)], [⟨[255, 255, 255, 255, 65], 12⟩]⟩, .standard⟩

theorem overstated_collected : ∃ k' : Kernel,
    Conducts 3 Call.next overstated
      (Call.ofObject (collect ⟨⟨0, 3, 1, false⟩, 0, ⟨"m"⟩, 8⟩ (some (.ofLimit 4))))
      (collection ⟨⟨0, 3, 1, false⟩, 0, ⟨"m"⟩, 8⟩ (.error (.ipc (.recordSize 4294967295 8)))) k'
      (.ok (.received (.ofLimit 4) (.error (.ipc (.recordSize 4294967295 8))))) ∧
      k'.files = overstated.files := by
  obtain ⟨r, c, k', hr, hc, hrun, hfiles, -⟩ :=
    (collecting_any_record 3 ⟨⟨0, 3, 1, false⟩, 0, ⟨"m"⟩, 8⟩ (some (.ofLimit 4)) (k := overstated)
      (s := ⟨1, [1, 0, 2], [⟨7, [⟨vacancy, -1⟩]⟩], false⟩) rfl (by decide) (by decide) (by decide)
      (by decide) (by decide)).2
  have hclaim : Record.headerValue ((fileIn ⟨⟨0, 3, 1, false⟩, 0, ⟨"m"⟩, 8⟩ overstated).read 0
      Record.headerSize) = 4294967295 := by decide +kernel
  obtain rfl : Except.error (.ipc (.recordSize 4294967295 8)) = r :=
    Option.some.inj ((by decide +kernel : some _ = _).trans hr)
  cases hc with
  | impossible hn hlt =>
    obtain rfl := hn.symm.trans hclaim
    exact ⟨k', hrun, hfiles⟩
  | tooLarge hn hle _ _ | received hn hle _ _ _ | discarded hn hle _ =>
    obtain rfl := hn.symm.trans hclaim
    exact absurd hle (by decide)

end Mailbox

end QueuePair

import QueuePair.Proofs.Opening
import QueuePair.Proofs.Slices

namespace QueuePair

namespace FileTree

variable {t : FileTree} {file : FileId} {f : File}

theorem file?_modify_self (g : File → File) (h : t.file? file = some f) :
    (t.modify file g).file? file = some (g f) := by
  simp only [file?, modify, List.getElem?_modify_eq] at h ⊢
  rw [h]
  rfl

theorem file?_extend_self (size : Nat) (h : t.file? file = some f) :
    (t.extend file size).file? file = some (if f.length < size then f.resize size else f) :=
  file?_modify_self _ h

theorem openFile_of_lookup {p : Path} (h : t.lookup p = .ok (some (.file file))) :
    t.openFile p true = (t, .ok file) := by
  simp [openFile, h]

end FileTree

inductive Kernel.Serial : Kernel → List (ObjectOperation × Result) → Kernel → Prop
  | nil {k : Kernel} : Serial k [] k
  | cons {k u v : Kernel} {op : ObjectOperation} {r : Result}
      {l : List (ObjectOperation × Result)} :
      (∀ t, Executes t Call.next k (Call.ofObject op) u r) → Serial u l v →
      Serial k ((op, r) :: l) v

theorem Kernel.Serial.append {k u v : Kernel} {l l' : List (ObjectOperation × Result)}
    (h : k.Serial l u) (h' : u.Serial l' v) : k.Serial (l ++ l') v := by
  induction h with
  | nil => exact h'
  | cons hop _ ih => exact .cons hop (ih h')

namespace World

variable {w u v : World}

theorem Run.follow {allowed : Input → Prop} {ts : List ThreadId} (hr : Run allowed w u)
    (ha : ∀ t, allowed (.run t)) (hf : u.follow ts = some v) : Run allowed w v := by
  induction ts generalizing u with
  | nil =>
    cases hf
    exact hr
  | cons t ts ih =>
    obtain ⟨x, hx, hrest⟩ := Option.bind_eq_some_iff.mp
      ((congrArg (· = some v) List.foldlM_cons).mp hf)
    exact ih (hr.step (.run t) (ha t) hx) hrest

/-- Operations on shared objects that are requested one after the other, each when the one before
has ended, and how they end. -/
inductive InTurn : World → List (ObjectOperation × Result) → World → Prop
  | nil {w : World} : InTurn w [] w
  | cons {w u v : World} {op : ObjectOperation} {r : Result} {n : Nat}
      {l : List (ObjectOperation × Result)} :
      (w.request op).1.follow (List.replicate n w.threads.length) = some u →
      u.outcome? w.threads.length = some (.returned r) → InTurn u l v → InTurn w ((op, r) :: l) v

theorem inTurn_of_serial {k : Kernel} {l : List (ObjectOperation × Result)}
    (h : w.kernel.Serial l k) (hq : w.Queued) : ∃ v, InTurn w l v ∧ v.kernel = k ∧ v.Queued := by
  generalize hk : w.kernel = k₀ at h
  induction h generalizing w with
  | nil => exact ⟨w, .nil, hk, hq⟩
  | @cons k₀ k₁ k₂ op r l hop _ ih =>
    obtain ⟨n, u, hu, huk, hout, -⟩ := follow_request hq (hk ▸ hop w.threads.length)
    have hrun : Run (fun _ => True) w u :=
      (Run.refl.step (.request op) trivial rfl).follow (fun _ => trivial) hu
    obtain ⟨v, hv, hvk, hvq⟩ := ih (hrun.queued hq) huk
    exact ⟨v, .cons hu hout hv, hvk, hvq⟩

end World

namespace Mailbox

/-- A mailbox: its path and its key, and the file and the set that they lead to. -/
structure Site where
  path : Path
  key : Key
  file : FileId
  set : SetId

namespace Site

variable {z : Site} {k : Kernel} {m : Mailbox} {t : ThreadId} {g v : Nat} {rest : List Nat}
  {payload : Bytes}

def handle (z : Site) (capacity : Nat) : Mailbox :=
  ⟨⟨z.set, semaphoreCount, z.key, false⟩, z.file, z.path, capacity⟩

/-- A handle on the mailbox. Opening it has made the file long enough. -/
structure Gives (z : Site) (k : Kernel) (m : Mailbox) : Prop where
  set : m.semaphores.set = z.set
  file : m.file = z.file
  room : ∃ f, k.files.file? z.file = some f ∧ Record.headerSize + m.capacity ≤ f.length

/-- Where the mailbox is found, and that its semaphores have these values while nobody waits. -/
structure Shows (z : Site) (k : Kernel) (g v : Nat) (rest : List Nat) : Prop where
  path : k.files.lookup z.path = .ok (some (.file z.file))
  file : ∃ f, k.files.file? z.file = some f
  key : k.setOf? z.key = some z.set
  set : k.sets[z.set]? = some ⟨z.key, g :: v :: rest, [], false⟩
  wide : rest ≠ []
  free : 0 < g
  bound : g ≤ semaphoreMax

def Vacant (z : Site) (k : Kernel) : Prop :=
  ∃ g rest, z.Shows k g 1 rest

def put (z : Site) (k : Kernel) (values : List Nat) : Kernel :=
  k.putSet z.set ⟨z.key, values, [], false⟩

theorem put_put (z : Site) (k : Kernel) (a b : List Nat) : z.put (z.put k a) b = z.put k b := by
  simp [put, Kernel.putSet]

theorem Shows.put_self (h : z.Shows k g v rest) : z.put k (g :: v :: rest) = k := by
  simp only [put, Kernel.putSet, World.set_of_getElem? h.set]

theorem Shows.put (h : z.Shows k g v rest) (v' : Nat) :
    z.Shows (z.put k (g :: v' :: rest)) g v' rest := by
  have hlive : k.live? z.set = some ⟨z.key, g :: v :: rest, [], false⟩ :=
    Kernel.live?_eq_some.mpr ⟨h.set, rfl⟩
  have hkey : (k.putSet z.set ⟨z.key, g :: v' :: rest, [], false⟩).setOf? z.key =
      k.setOf? z.key :=
    Kernel.setOf?_putSet hlive (by rfl) (by rfl) z.key
  have hlt := (List.getElem?_eq_some_iff.mp h.set).1
  exact {
    path := h.path
    file := h.file
    key := hkey.trans h.key
    set := List.getElem?_set_self hlt
    wide := h.wide
    free := h.free
    bound := h.bound }

theorem Shows.modify (h : z.Shows k g v rest) (file : FileId) (f : File → File) :
    z.Shows { k with files := k.files.modify file f } g v rest where
  path := (FileTree.lookup_modify ..).trans h.path
  file := by
    obtain ⟨x, hx⟩ := h.file
    simp only [FileTree.file?, FileTree.modify, List.getElem?_modify] at hx ⊢
    rw [hx]
    exact ⟨_, rfl⟩
  key := h.key
  set := h.set
  wide := h.wide
  free := h.free
  bound := h.bound

theorem executes_add {k k' : Kernel} {c : Call} {values : List Nat} {i n : Nat} {d : Int}
    {go : Except Error Unit → Call.Started} {r : Result} (hlt : z.set < k.sets.length)
    (hn : c.next = .call (.change z.set [⟨i, d⟩] none) go) (hd : d ≠ 0)
    (hsum : (values.getD i 0 : Int) + d = n) (hmax : n ≤ semaphoreMax)
    (hrest : Executes t Call.next (z.put k (values.set i n)) (go (.ok ())) k' r) :
    Executes t Call.next (z.put k values) (.more c) k' r := by
  have hlive : (z.put k values).live? z.set = some ⟨z.key, values, [], false⟩ :=
    Kernel.live?_eq_some.mpr ⟨List.getElem?_set_self hlt, rfl⟩
  refine .call hn (Kernel.call_change hlive rfl (attempt_one hd hsum hmax) none) ?_
  rw [← put_put] at hrest
  exact hrest

theorem Shows.publish (h : z.Shows k g 1 rest) (hm : z.Gives k m)
    (hp : payload.length ≤ m.capacity) :
    Executes t Call.next k (Call.ofObject (.publish m payload))
      (z.put { k with files := k.files.modify z.file (Record.store · payload) } (g :: 0 :: rest))
      (.ok .unit) := by
  have hfree := h.free
  have hbound := h.bound
  have hlt := (List.getElem?_eq_some_iff.mp h.set).1
  have hstart : Call.ofObject (.publish m payload) =
      .more (.publishing m payload .takeVacancy) := by
    simp only [Call.ofObject, Publishing.start, if_neg (Nat.not_lt.mpr hp), Flow.elim]
  obtain ⟨⟨set, count, key, created⟩, file, path, capacity⟩ := m
  obtain rfl : set = z.set := hm.set
  obtain rfl : file = z.file := hm.file
  rw [hstart]
  nth_rewrite 1 [← h.put_self]
  refine executes_add (i := vacancy) (d := -1) (n := 0) hlt rfl (by decide) (by simp [vacancy])
    (Nat.zero_le _) ?_
  refine executes_add (i := gate) (d := -1) (n := g - 1) hlt rfl (by decide)
    (by simp [gate, vacancy]; omega) (by omega) ?_
  refine .call rfl rfl ?_
  refine executes_add (i := gate) (d := 1) (n := g)
    (k := { k with files := k.files.modify z.file (Record.store · payload) }) hlt rfl (by decide)
    (by simp [gate, vacancy]; omega) hbound ?_
  exact .done

/-- Opening the mailbox once more gives another handle, and changes nothing but the length of the
file. -/
theorem Shows.join (h : z.Shows k g v rest) (capacity : Nat) (hl : k.limits.Grants capacity) :
    Executes t Call.next k (Call.ofObject (.openMailbox z.path capacity z.key))
      { k with files := k.files.extend z.file (Record.headerSize + capacity) }
      (.ok (.mailbox (z.handle capacity))) := by
  obtain ⟨k', r, hends, hex⟩ := Opening.executes t k z.path capacity z.key
  have hopen := FileTree.openFile_of_lookup h.path
  have hwide : semaphoreCount ≤ (g :: v :: rest).length := by
    have hpos := List.length_pos_iff.mpr h.wide
    simp only [List.length_cons, semaphoreCount]
    omega
  cases hends with
  | unmapped hm =>
    obtain ⟨e, he⟩ | hdir | ⟨-, hlong⟩ | hlarge := hm.error_iff.mp ⟨_, rfl⟩
    · cases h.path.symm.trans he
    · cases h.path.symm.trans hdir
    · exact absurd hl.1 (Nat.not_le.mpr hlong)
    · exact absurd hl.2 (Nat.not_le.mpr hlarge)
  | made _ hs =>
    rw [h.key] at hs
    cases hs
  | joined hm hs hset _ =>
    cases hm with
    | mapped ho =>
      rw [hopen] at ho
      cases ho
      rw [h.key] at hs
      cases hs
      exact hex.through (fun _ => rfl) .done
  | refused _ hshort =>
    obtain ⟨set, s, hset, hs, hlt⟩ := hshort
    rw [h.key] at hset
    cases hset
    rw [h.set] at hs
    cases hs
    exact absurd hwide (Nat.not_le.mpr hlt)

theorem Shows.collect (h : z.Shows k g 0 rest) (hm : z.Gives k m) (into : Option Buffer) :
    Executes t Call.next k (Call.ofObject (m.collect into)) (z.put k (g :: 1 :: rest))
      (Call.received (.ofMessage into (Record.load (m.fileIn k) m.capacity))) := by
  have hfree := h.free
  have hbound := h.bound
  have hlt := (List.getElem?_eq_some_iff.mp h.set).1
  obtain ⟨⟨set, count, key, created⟩, file, path, capacity⟩ := m
  obtain rfl : set = z.set := hm.set
  rw [ofObject_collect]
  nth_rewrite 1 [← h.put_self]
  refine executes_add (i := gate) (d := -1) (n := g - 1) hlt rfl (by decide)
    (by simp [gate]; omega) (by omega) ?_
  refine .call rfl rfl ?_
  refine executes_add (i := gate) (d := 1) (n := g) hlt rfl (by decide)
    (by simp [gate]; omega) hbound ?_
  refine executes_add (i := vacancy) (d := 1) (n := 1) hlt rfl (by decide)
    (by simp [gate, vacancy]) (by decide) ?_
  exact .done

def Carries (z : Site) (k : Kernel) (payload : Bytes) : Prop :=
  ∃ f, k.files.file? z.file = some f ∧ Record.encode payload <+: f.written ∧
    Record.headerSize + payload.length ≤ f.length

theorem Gives.fileIn (hm : z.Gives k m) {f : File} (hf : k.files.file? z.file = some f) :
    m.fileIn k = f := by
  rw [Mailbox.fileIn, hm.file, hf]
  rfl

theorem Gives.mono {k' : Kernel} (hm : z.Gives k m)
    (h : ∀ f, k.files.file? z.file = some f →
      ∃ f', k'.files.file? z.file = some f' ∧ f.length ≤ f'.length) : z.Gives k' m := by
  obtain ⟨f, hf, hroom⟩ := hm.room
  obtain ⟨f', hf', hle⟩ := h f hf
  exact ⟨hm.set, hm.file, f', hf', Nat.le_trans hroom hle⟩

theorem Gives.store (hm : z.Gives k m) (hp : payload.length ≤ m.capacity) (values : List Nat) :
    let k' := z.put { k with files := k.files.modify z.file (Record.store · payload) } values
    z.Carries k' payload ∧ ∀ m', z.Gives k m' → z.Gives k' m' := by
  obtain ⟨f, hf, hroom⟩ := hm.room
  have hf' := FileTree.file?_modify_self (Record.store · payload) hf
  refine ⟨⟨_, hf', Record.prefix_store f payload, ?_⟩, fun m' hm' => hm'.mono fun f₁ hf₁ => ?_⟩
  · exact Nat.le_trans (Nat.add_le_add_left hp _) hroom
  · rw [hf] at hf₁
    cases hf₁
    exact ⟨_, hf', Nat.le_refl _⟩

theorem Shows.extend (h : z.Shows k g v rest) (capacity : Nat) :
    let k' : Kernel := { k with files := k.files.extend z.file (Record.headerSize + capacity) }
    z.Shows k' g v rest ∧ z.Gives k' (z.handle capacity) ∧ (∀ m, z.Gives k m → z.Gives k' m) ∧
      ∀ payload, z.Carries k payload → z.Carries k' payload := by
  obtain ⟨f, hf⟩ := h.file
  have hf' := FileTree.file?_extend_self (Record.headerSize + capacity) hf
  have hlong : f.length ≤
      (if f.length < Record.headerSize + capacity then f.resize (Record.headerSize + capacity)
        else f).length := by
    split
    · exact Nat.le_of_lt ‹_›
    · exact Nat.le_refl _
  refine ⟨h.modify .., ⟨rfl, rfl, _, hf', ?_⟩, fun m hm => hm.mono fun f₁ hf₁ => ?_,
    fun payload ⟨f₁, hf₁, hrec, hroom⟩ => ?_⟩
  · split
    · exact Nat.le_refl _
    · exact Nat.le_of_not_lt ‹_›
  · rw [hf] at hf₁
    cases hf₁
    exact ⟨_, hf', hlong⟩
  · rw [hf] at hf₁
    cases hf₁
    refine ⟨_, hf', ?_, Nat.le_trans hroom hlong⟩
    split
    · exact Record.prefix_resize hrec (Nat.le_of_lt (Nat.lt_of_le_of_lt hroom ‹_›))
    · exact hrec

def joining (z : Site) (capacities : List Nat) : List (ObjectOperation × Result) :=
  capacities.map fun c => (.openMailbox z.path c z.key, .ok (.mailbox (z.handle c)))

theorem Shows.joins (h : z.Shows k g v rest) (capacities : List Nat)
    (hl : ∀ c ∈ capacities, k.limits.Grants c) :
    ∃ k', k.Serial (z.joining capacities) k' ∧ z.Shows k' g v rest ∧ k'.sets = k.sets ∧
      k'.limits = k.limits ∧ (∀ c ∈ capacities, z.Gives k' (z.handle c)) ∧
      (∀ m, z.Gives k m → z.Gives k' m) ∧
      ∀ payload, z.Carries k payload → z.Carries k' payload := by
  induction capacities generalizing k with
  | nil => exact ⟨k, .nil, h, rfl, rfl, nofun, fun _ hm => hm, fun _ hp => hp⟩
  | cons c cs ih =>
    obtain ⟨hshows, hnew, hgives, hcarries⟩ := h.extend c
    obtain ⟨k', hserial, hshows', hsets, hlimits, hnew', hgives', hcarries'⟩ :=
      ih hshows fun c' hc' => hl c' (List.mem_cons_of_mem _ hc')
    refine ⟨k', .cons (fun t => h.join c (hl c List.mem_cons_self)) hserial, hshows', hsets,
      hlimits, fun c' hc' => ?_,
      fun m hm => hgives' m (hgives m hm), fun p hp => hcarries' p (hcarries p hp)⟩
    rcases List.mem_cons.mp hc' with rfl | hc'
    · exact hgives' _ hnew
    · exact hnew' c' hc'

end Site

/-- A message that is published with one handle and collected with another one. Further handles may
be had before it is published and before it is collected. -/
structure Exchange where
  before : List Nat
  sender : Mailbox
  payload : Bytes
  between : List Nat
  receiver : Mailbox
  into : Option Buffer

namespace Exchange

variable {z : Site} {known : List Mailbox} {x : Exchange} {k : Kernel} {g : Nat} {rest : List Nat}

/-- What collecting the message gives. -/
def answer (x : Exchange) : Result :=
  let n := x.payload.length
  if n > x.receiver.capacity then
    Call.received ⟨x.into, .error (.ipc (.recordSize n x.receiver.capacity))⟩
  else
    match x.into with
    | none => .ok (.size n)
    | some b =>
      if h : n ≤ b.limit then .ok (.received ⟨x.payload, b.limit, h⟩ (.ok n))
      else .ok (.received b (.error (.frameTooLarge n b.limit)))

def script (z : Site) (x : Exchange) : List (ObjectOperation × Result) :=
  z.joining x.before ++ ((.publish x.sender x.payload, .ok .unit) ::
    (z.joining x.between ++ [(x.receiver.collect x.into, x.answer)]))

def handles (z : Site) (known : List Mailbox) (x : Exchange) : List Mailbox :=
  known ++ (x.before ++ x.between).map z.handle

/-- Whether both handles are had when they are used, and the message is one that the first of them
takes. The system grants the further handles. -/
structure Proper (z : Site) (limits : Limits) (known : List Mailbox) (x : Exchange) : Prop where
  sender : x.sender ∈ known ++ x.before.map z.handle
  receiver : x.receiver ∈ x.handles z known
  fits : x.payload.length ≤ x.sender.capacity
  capacity : x.sender.capacity < 4294967296
  granted : ∀ c ∈ x.before ++ x.between, limits.Grants c

theorem received_load {f : File} (hrec : Record.encode x.payload <+: f.written)
    (hlt : x.payload.length < 4294967296) :
    Call.received (.ofMessage x.into (Record.load f x.receiver.capacity)) = x.answer := by
  simp only [Record.load_stored hrec hlt, answer]
  split
  · rfl
  · cases x.into with
    | none => rfl
    | some b =>
      simp only [Collected.ofMessage, Buffer.fill]
      by_cases hfits : x.payload.length ≤ b.limit
      · simp only [dif_pos hfits]
        rfl
      · simp only [dif_neg hfits]
        rfl

/-- One exchange at a vacant mailbox, which is vacant again afterwards. -/
theorem Proper.serial (hx : x.Proper z k.limits known) (h : z.Shows k g 1 rest)
    (hk : ∀ m ∈ known, z.Gives k m) :
    ∃ k', k.Serial (x.script z) k' ∧ z.Shows k' g 1 rest ∧ k'.sets = k.sets ∧
      k'.limits = k.limits ∧ ∀ m ∈ x.handles z known, z.Gives k' m := by
  obtain ⟨k₁, hserial₁, h₁, hsets₁, hlimits₁, hnew₁, hold₁, -⟩ :=
    h.joins x.before fun c hc => hx.granted c (List.mem_append_left _ hc)
  have hknown₁ : ∀ m ∈ known ++ x.before.map z.handle, z.Gives k₁ m := fun m hm => by
    rcases List.mem_append.mp hm with hm | hm
    · exact hold₁ m (hk m hm)
    · obtain ⟨c, hc, rfl⟩ := List.mem_map.mp hm
      exact hnew₁ c hc
  have hsender := hknown₁ _ hx.sender
  obtain ⟨hcarries₂, hold₂⟩ := hsender.store hx.fits (g :: 0 :: rest)
  obtain ⟨k₃, hserial₃, h₃, hsets₃, hlimits₃, hnew₃, hold₃, hcarries₃⟩ :=
    ((h₁.modify z.file (Record.store · x.payload)).put 0).joins x.between fun c hc =>
      hlimits₁ ▸ hx.granted c (List.mem_append_right _ hc)
  have hknown₃ : ∀ m ∈ x.handles z known, z.Gives k₃ m := fun m hm => by
    rw [handles, List.map_append, ← List.append_assoc] at hm
    rcases List.mem_append.mp hm with hm | hm
    · exact hold₃ m (hold₂ m (hknown₁ m hm))
    · obtain ⟨c, hc, rfl⟩ := List.mem_map.mp hm
      exact hnew₃ c hc
  have hreceiver := hknown₃ _ hx.receiver
  obtain ⟨f, hf, hrec, -⟩ := hcarries₃ _ hcarries₂
  have hlt := Nat.lt_of_le_of_lt hx.fits hx.capacity
  have hcollect : ∀ t, Executes t Call.next k₃ (Call.ofObject (x.receiver.collect x.into))
      (z.put k₃ (g :: 1 :: rest)) x.answer := fun t => by
    rw [← received_load hrec hlt, ← hreceiver.fileIn hf]
    exact h₃.collect hreceiver x.into
  refine ⟨z.put k₃ (g :: 1 :: rest), ?_, h₃.put 1, ?_,
    hlimits₃.trans hlimits₁, fun m hm =>
    (hknown₃ m hm).mono fun f hf => ⟨f, hf, Nat.le_refl _⟩⟩
  · exact hserial₁.append (.cons (fun t => h₁.publish hsender hx.fits)
      (hserial₃.append (.cons hcollect .nil)))
  · have hput : (z.put k₃ (g :: 1 :: rest)).sets = (z.put k₁ (g :: 1 :: rest)).sets := by
      simp [Site.put, Kernel.putSet, hsets₃]
    rw [hput, h₁.put_self, hsets₁]

/-- Exchanges one after the other, all of them proper. -/
def AllProper (z : Site) (limits : Limits) : List Mailbox → List Exchange → Prop
  | _, [] => True
  | known, x :: xs => x.Proper z limits known ∧ AllProper z limits (x.handles z known) xs

/-- Exchanges that are carried out one after the other. Before each of them and at the end the
mailbox is vacant and its gate free, with the same semaphores. -/
inductive Course (z : Site) : World → List Exchange → World → Prop
  | nil {w : World} : z.Vacant w.kernel → Course z w [] w
  | cons {w u v : World} {x : Exchange} {xs : List Exchange} : z.Vacant w.kernel →
      w.InTurn (x.script z) u → u.kernel.sets = w.kernel.sets → Course z u xs v →
      Course z w (x :: xs) v

/-- Messages that go through a mailbox one after the other, whatever stood in its file. The mailbox
is vacant, its gate is free, and nobody waits; the handles on it have any capacities, and others are
opened at any time, if the system grants them. Every exchange is carried out, and its collection
ends as the size of the message, the capacity of the handle and the limit of the buffer say: if it
is not an error, the message is given back as it was published. The mailbox is vacant and its gate
free after each of them, and no copy leaves the mapping of its handle. -/
theorem exchanges_in_turn {w : World} (hq : w.Queued) (z : Site) (hv : z.Vacant w.kernel)
    (known : List Mailbox) (hk : ∀ m ∈ known, z.Gives w.kernel m) (xs : List Exchange)
    (hx : AllProper z w.kernel.limits known xs) :
    (∃ v, Course z w xs v) ∧
      ∀ x ∈ xs, ∀ k, (x.sender.copyIn k x.payload).isSome ∧ (x.receiver.copyOut k).isSome := by
  induction xs generalizing w known with
  | nil => exact ⟨⟨w, .nil hv⟩, nofun⟩
  | cons x xs ih =>
    obtain ⟨hproper, hrest⟩ := hx
    obtain ⟨g, rest, hshows⟩ := hv
    obtain ⟨k', hserial, hshows', hsets, hlimits, hknown⟩ := hproper.serial hshows hk
    obtain ⟨u, hu, rfl, huq⟩ := World.inTurn_of_serial hserial hq
    obtain ⟨⟨v, hcourse⟩, hcopies⟩ := ih huq ⟨g, rest, hshows'⟩ _ hknown (hlimits ▸ hrest)
    refine ⟨⟨v, .cons ⟨g, rest, hshows⟩ hu hsets hcourse⟩, fun y hy k => ?_⟩
    rcases List.mem_cons.mp hy with rfl | hy
    · rw [copyIn_eq hproper.fits, copyOut_eq]
      exact ⟨rfl, rfl⟩
    · exact hcopies y hy k

/-- A mailbox that was opened and whose gate was raised once. -/
def opened : World :=
  World.empty.play (.request (.openMailbox ⟨"/m"⟩ 6 1) :: List.replicate 6 (.run 0) ++
    [.request (.raiseGate ⟨⟨0, 3, 1, true⟩, 0, ⟨"/m"⟩, 6⟩), .run 1])

def openedSite : Site := ⟨⟨"/m"⟩, 1, 0, 0⟩

/-- A message that fits nobody's buffer, and a shorter one for a handle of its own. -/
def twoMessages : List Exchange :=
  [⟨[9], openedSite.handle 9, [1, 2, 3, 4, 5, 6, 7], [2], ⟨⟨0, 3, 1, true⟩, 0, ⟨"/m"⟩, 6⟩, none⟩,
    ⟨[], ⟨⟨0, 3, 1, true⟩, 0, ⟨"/m"⟩, 6⟩, [8, 9], [], openedSite.handle 2, some (.ofLimit 2)⟩]

theorem two_messages : twoMessages.map answer =
    [.error (.ipc (.recordSize 7 6)), .ok (.received (.ofBytes [8, 9]) (.ok 2))] ∧
      ∃ v, Course openedSite opened twoMessages v := by
  have hq : opened.Queued := World.Reachable.queued (World.Run.refl.play fun _ _ => trivial)
  have hv : openedSite.Vacant opened.kernel := ⟨1, [0], {
    path := by decide +kernel
    file := ⟨_, (by decide +kernel : _ = some (⟨[], 10⟩ : File))⟩
    key := by decide +kernel
    set := by decide +kernel
    wide := by decide
    free := by decide
    bound := by decide }⟩
  refine ⟨rfl, (exchanges_in_turn hq openedSite hv [⟨⟨0, 3, 1, true⟩, 0, ⟨"/m"⟩, 6⟩] ?_
    twoMessages ?_).1⟩
  · rintro m hm
    obtain rfl := List.mem_singleton.mp hm
    exact ⟨rfl, rfl, _, (by decide +kernel : _ = some (⟨[], 10⟩ : File)), by decide⟩
  · exact ⟨⟨by decide, by decide, by decide, by decide, by decide +kernel⟩,
      ⟨by decide, by decide, by decide, by decide, by decide +kernel⟩, trivial⟩

end Exchange

end Mailbox

end QueuePair

import QueuePair.Proofs.Decomposition
import QueuePair.Proofs.Keys

namespace QueuePair

mutual

/-- Whether a command and all that its posts carry never destroy an endpoint. -/
def Command.peaceful : Command → Bool
  | .postSend _ _ onDone onError | .postReceive _ _ onDone onError =>
    Script.peaceful onDone && Script.peaceful onError
  | .destroy => false
  | _ => true

/-- Whether no command of a script destroys an endpoint. -/
def Script.peaceful : List Command → Bool
  | [] => true
  | c :: rest => c.peaceful && Script.peaceful rest

end

namespace Handler

def peaceful : Handler → Bool
  | .caller => true
  | .callbacks _ onDone onError => Script.peaceful onDone && Script.peaceful onError

end Handler

namespace Operation

def peaceful : Operation → Bool
  | .postSend _ handler | .postReceive _ handler => handler.peaceful
  | .destroy => false
  | _ => true

def serves : Operation → Bool
  | .connect | .accept | .finalizeConnect | .finalizeAccept | .destroy => false
  | _ => true

end Operation

namespace Input

/-- Threads run and lose patience, holds are released, regions are registered, and every operation
but destroying is called. -/
def Peaceful : Input → Prop
  | .operate _ op => op.peaceful = true
  | .make _ | .request _ | .drop _ => False
  | _ => True

instance : DecidablePred Peaceful := fun i => by
  cases i <;> unfold Peaceful <;> infer_instance

end Input

/-- A server and a client of one namespace and directory. -/
structure Pair where
  settings : Role → Settings
  space : String
  dir : Path
  -- the side that is made first
  first : Role
  role_settings : ∀ r, (settings r).role = r
  space_settings : ∀ r, (settings r).space = space
  dir_settings : ∀ r, (settings r).dir = dir
  resolves : ∀ r, ∃ a : Attributes, a.resolve = .ok (settings r)

namespace Pair

variable (P : Pair)

def keys : Keys := .derive P.space P.dir

def id (r : Role) : EndpointId :=
  if r = P.first then 0 else 1

def party (r : Role) : Party := ⟨P.id r, P.settings r⟩

/-- Nothing has happened yet: two unconnected endpoints, no thread, and no semaphore set under a
key of the pair. Files and other sets may be there; a name that is there stands for a file. -/
structure Begins (w : World) : Prop where
  endpoints : ∃ f : Role → Option Script, w.endpoints =
    [.ofSettings (P.settings P.first) (f P.first),
      .ofSettings (P.settings P.first.peer) (f P.first.peer)]
  threads : w.threads = []
  history : w.history = []
  mailbox : w.kernel.setOf? P.keys.mailbox = none
  signal : ∀ r, w.kernel.setOf? (P.keys.outbound r) = none
  waiters : ∀ s ∈ w.kernel.sets, s.waiters = []
  housed : ∀ file, w.kernel.files.lookup P.keys.path = .ok (some (.file file)) →
    (w.kernel.files.file? file).isSome = true

variable {P}

theorem id_inj {r r' : Role} : P.id r = P.id r' ↔ r = r' := by
  unfold id
  cases r <;> cases r' <;> cases P.first <;> decide

@[simp] theorem party_id (r : Role) : (P.party r).id = P.id r := rfl

@[simp] theorem party_settings (r : Role) : (P.party r).settings = P.settings r := rfl

@[simp] theorem settings_role (r : Role) : (P.settings r).role = r := P.role_settings r

theorem party_inj {r r' : Role} : P.party r = P.party r' ↔ r = r' :=
  ⟨fun h => id_inj.mp (congrArg Party.id h), fun h => h ▸ rfl⟩

@[simp] theorem party_keys (r : Role) : (P.party r).keys = P.keys := by
  simp [Party.keys, Settings.keys, keys, P.space_settings, P.dir_settings]

theorem mailbox_ne_zero : P.keys.mailbox ≠ 0 := Keys.mailbox_derive_ne_zero _ _

theorem outbound_ne_zero (r : Role) : P.keys.outbound r ≠ 0 := Keys.outbound_derive_ne_zero _ _ r

theorem capacity_le (r : Role) : (P.settings r).capacity ≤ Attributes.capacityMax := by
  obtain ⟨a, ha⟩ := P.resolves r
  exact (Attributes.resolve_bounds ha).2.2.2

theorem one_le_sendDepth (r : Role) : 1 ≤ (P.settings r).sendDepth := by
  obtain ⟨a, ha⟩ := P.resolves r
  exact (Attributes.resolve_bounds ha).1.1

theorem Begins.ends {w : World} (h : P.Begins w) (r : Role) :
    ∃ script, w.endpoints[P.id r]? = some (.ofSettings (P.settings r) script) := by
  obtain ⟨f, hf⟩ := h.endpoints
  rcases eq_or_ne r P.first with rfl | hr
  · exact ⟨f P.first, by simp [hf, Pair.id]⟩
  · obtain rfl : r = P.first.peer := by
      revert hr
      cases r <;> cases P.first <;> simp [Role.peer]
    exact ⟨f P.first.peer, by simp [hf, Pair.id, hr]⟩

theorem Begins.queued {w : World} (h : P.Begins w) : w.Queued where
  waits := fun hs hm => by simp [h.waiters _ (List.mem_of_getElem? hs)] at hm
  nodup := fun hs => by simp [h.waiters _ (List.mem_of_getElem? hs)]
  blocks := fun hs hm => by simp [h.waiters _ (List.mem_of_getElem? hs)] at hm
  gone := fun hs _ => h.waiters _ (List.mem_of_getElem? hs)

/-- A pair with short queues and a small mailbox. -/
def small : Pair where
  settings r := ⟨r, .ofMillis 3000, 2, 2, "n", ⟨"/"⟩, 16⟩
  space := "n"
  dir := ⟨"/"⟩
  first := .server
  role_settings _ := rfl
  space_settings _ := rfl
  dir_settings _ := rfl
  resolves r := ⟨⟨r, .ofMillis 3000, 2, 2, "n", ⟨"/"⟩, 16, none⟩, by cases r <;> rfl⟩

/-- The small pair, just made. -/
def newborn : World :=
  { World.empty with
    endpoints := [.ofSettings (small.settings .server) none,
      .ofSettings (small.settings .client) none] }

theorem newborn_begins : small.Begins newborn where
  endpoints := ⟨fun _ => none, rfl⟩
  threads := rfl
  history := rfl
  mailbox := by decide +kernel
  signal := fun r => by cases r <;> decide +kernel
  waiters := by simp [newborn, World.empty, Kernel.empty]
  housed := fun file h => by
    have hnone : (newborn.kernel.files.lookup small.keys.path).toOption = some none := by
      decide +kernel
    rw [h] at hnone
    cases hnone

/-- The inputs that connect the server and then the client of the small pair. -/
def joining : List Input :=
  [.operate 0 .accept] ++ List.replicate 18 (.run 0) ++
    [.operate 1 .connect] ++ List.replicate 18 (.run 3)

end Pair

end QueuePair

import QueuePair.Proofs.Decomposition

namespace QueuePair.World

variable {w v : World} {t : ThreadId}

/-- What an answer to an action tells. -/
def Answered (w : World) (t : ThreadId) : {α : Type} → Primitive α → World → α → Prop
  | _, .system (.change set changes deadline), v, a =>
    (∃ s values, w.kernel.live? set = some s ∧ attempt s.values changes = .done values ∧
      v = { w with kernel := w.kernel.putSet set { s with values } } ∧ a = .ok ()) ∨
    (∃ s, w.kernel.live? set = some s ∧ attempt s.values changes = .overflows ∧ v = w ∧
      a = .error (.ofSystem .outOfRange)) ∨
    (w.kernel.live? set = none ∧ v = w ∧ a = .error .connectionClosed) ∨
    (deadline.isSome = true ∧ v = w ∧ a = .error .timeout)
  | _, .system c, v, a => ∃ k ends, w.kernel.call t c = ⟨k, ends, some a⟩ ∧
    v = ({ w with kernel := k }.observe t (some a) c)
  | _, .endpoint e (.awaitReply serial _), v, a =>
    v = w ∧ (a = .missing ∨ ∃ x, w.endpoints[e]? = some x ∧ a = x.reply serial)
  | _, .endpoint e c, v, a => ∃ x s, w.endpoints[e]? = some x ∧ x.call t c = some s ∧
    v = s.notes.foldl (·.note e ·) (w.putEndpoint e s.endpoint) ∧ a = s.answer
  | _, .clock span, v, a => v = w ∧ a = w.deadline? span
  | _, .park _ _, v, _ => v = w
  | _, .spawn p link d, v, _ => v = w.spawnWorker p link d
  | _, .join u, v, _ => v = w ∧ ∀ th, w.threads[u]? = some th → th.isEnded = true
  | _, .hold id, v, _ => v = w ∧ w.released.contains id = true
  | _, .note e n, v, _ => v = w.note e n

theorem putEndpoint_self {e : EndpointId} {x : Endpoint} (h : w.endpoints[e]? = some x) :
    w.putEndpoint e x = w := by
  simp only [putEndpoint, set_of_getElem? h]

theorem Answers.answered {α : Type} {p : Primitive α} {a : α} (h : w.Answers t p v a) :
    w.Answered t p v a := by
  cases h with
  | @system α c k ends a hc hk =>
    cases c with
    | change set changes d => cases hc
    | _ => exact ⟨k, ends, hk, rfl⟩
  | @grant set s changes d values hs ha => exact .inl ⟨s, values, hs, ha, rfl, rfl⟩
  | @overflow set s changes d hs ha => exact .inr (.inl ⟨s, hs, ha, rfl, rfl⟩)
  | gone hs => exact .inr (.inr (.inl ⟨hs, rfl, rfl⟩))
  | late => exact .inr (.inr (.inr ⟨rfl, rfl, rfl⟩))
  | @access α e x c s hx hc =>
    cases c with
    | awaitReply serial d =>
      simp only [Endpoint.call] at hc
      split at hc
      · cases hc
      · simp only [Endpoint.quiet, Option.some.injEq] at hc
        subst hc
        exact ⟨putEndpoint_self hx, .inr ⟨x, hx, rfl⟩⟩
    | _ => exact ⟨x, s, hx, hc, rfl, rfl⟩
  | unanswered => exact ⟨rfl, .inl rfl⟩
  | clock => exact ⟨rfl, rfl⟩
  | notified | timedOut | spawn | note => rfl
  | join h => exact ⟨rfl, h⟩
  | hold h => exact ⟨rfl, h⟩

def After (w : World) (t : ThreadId) {σ : Type} : Move σ → World → σ → Prop
  | .perform p next, v, s => ∃ a, w.Answered t p v a ∧ s = next a
  | _, _, _ => False

theorem After.of_map {σ τ : Type} {m : Move σ} {f : σ → τ} {s' : τ}
    (h : w.After t (m.map f) v s') : ∃ s, w.After t m v s ∧ s' = f s := by
  cases m with
  | perform p next =>
    obtain ⟨a, ha, rfl⟩ := h
    exact ⟨next a, ⟨a, ha, rfl⟩, rfl⟩
  | invoke | panic | halt => exact h.elim

theorem After.of_through {σ ρ τ : Type} {m : Move (Flow σ ρ)} {more : σ → τ} {done : ρ → τ}
    {s' : τ} (h : w.After t (m.through more done) v s') :
    (∃ s, w.After t m v (.more s) ∧ s' = more s) ∨ ∃ r, w.After t m v (.done r) ∧ s' = done r := by
  obtain ⟨f, hf, rfl⟩ := After.of_map h
  cases f with
  | more s => exact .inl ⟨s, hf, rfl⟩
  | done r => exact .inr ⟨r, hf, rfl⟩

end QueuePair.World

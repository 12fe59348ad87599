import Mathlib.Data.Nat.ModEq
import QueuePair.Proofs.Fate

namespace QueuePair

/-- What may become of an endpoint: a thread accesses it, its threads and the answers to its callers
are tended, or a region is registered on it. -/
inductive Endpoint.Alters (allowed : Input → Prop) (e : EndpointId) (x : Endpoint) : Endpoint → Prop
  | access {α : Type} {t : ThreadId} {c : EndpointCall α} {s : Section α} : x.call t c = some s →
      Alters allowed e x s.endpoint
  | tend (workers : List ThreadId) (owners : Nat) (replies : List (Nat × Reply)) :
      Alters allowed e x { x with workers, owners, replies }
  | register {addr length : UInt64} {access : Access} : allowed (.register e addr length access) →
      Alters allowed e x (x.register addr length access).1

namespace Endpoint

variable {allowed : Input → Prop} {e : EndpointId} {x y : Endpoint}

theorem Alters.refl (x : Endpoint) : x.Alters allowed e x :=
  .tend x.workers x.owners x.replies

theorem Alters.settings (h : x.Alters allowed e y) : y.settings = x.settings := by
  cases h with
  | access hc => exact (call_rest hc).1
  | tend | register => rfl

theorem alters_abandon (jobs : List Job) (x : Endpoint) : x.Alters allowed e
    (jobs.foldl (fun (x : Endpoint) (job : Job) => x.putReply job.serial .abandoned) x) := by
  have hreplies : ∃ replies,
      jobs.foldl (fun (x : Endpoint) (job : Job) => x.putReply job.serial .abandoned) x =
        { x with replies } := by
    induction jobs generalizing x with
    | nil => exact ⟨x.replies, rfl⟩
    | cons job jobs ih => exact ih (x.putReply job.serial .abandoned)
  obtain ⟨replies, h⟩ := hreplies
  exact h ▸ .tend x.workers x.owners replies

/-- No access gives out a key. -/
theorem call_nextKey {α : Type} {t : ThreadId} {c : EndpointCall α} {s : Section α}
    (hc : x.call t c = some s) : s.endpoint.nextKey = x.nextKey := by
  have hqueue : ∀ (d : Direction) (q : WorkQueue Job), (x.withQueue d q).nextKey = x.nextKey :=
    fun d q => by cases d <;> rfl
  cases c with
  | post d job =>
    simp only [call, Option.some.injEq] at hc
    subst hc
    unfold post
    split
    · rfl
    · split
      · rfl
      · exact hqueue _ _
  | nextSend =>
    simp only [call, Option.some.injEq] at hc
    subst hc
    unfold nextSend
    split
    · rfl
    · split <;> rfl
  | nextReceive =>
    simp only [call, Option.some.injEq] at hc
    subst hc
    unfold nextReceive
    split <;> rfl
  | cancel d serial =>
    simp only [call, Option.some.injEq] at hc
    subst hc
    unfold cancel
    split <;> exact hqueue _ _
  | drain d =>
    simp only [call, Option.some.injEq] at hc
    subst hc
    exact hqueue _ _
  | complete d slot =>
    simp only [call, waking, Option.some.injEq] at hc
    subst hc
    exact hqueue _ _
  | lockLink | readLink | takeLink =>
    simp only [call, underLink] at hc
    split at hc <;> cases hc
    rfl
  | awaitReply serial deadline =>
    simp only [call] at hc
    split at hc <;> cases hc
    rfl
  | release =>
    simp only [call] at hc
    split at hc <;> cases hc <;> rfl
  | _ =>
    cases hc
    rfl

theorem Alters.nextKey (h : x.Alters allowed e y)
    (hn : ∀ addr length access, ¬ allowed (.register e addr length access)) :
    y.nextKey = x.nextKey := by
  cases h with
  | access hc => exact call_nextKey hc
  | tend => rfl
  | register ha => exact absurd ha (hn _ _ _)

end Endpoint

namespace World

variable {w v : World} {e : EndpointId} {allowed : Input → Prop}

structure Alters (allowed : Input → Prop) (w v : World) (e : EndpointId) : Prop where
  ends : ∀ x, w.endpoints[e]? = some x →
    ∃ y, v.endpoints[e]? = some y ∧ x.Alters allowed e y
  made : w.endpoints[e]? = none → ∀ y, v.endpoints[e]? = some y →
    ∃ a s, allowed (.make a) ∧ a.resolve = .ok s ∧ y = .ofSettings s a.onDisconnect

theorem alters_of_eq (hv : v.endpoints = w.endpoints) : Alters allowed w v e :=
  ⟨fun x hx => ⟨x, hv ▸ hx, .refl x⟩, fun hx y hy => by cases hx.symm.trans (hv ▸ hy)⟩

theorem alters_modify {n : EndpointId} {f : Endpoint → Endpoint}
    (hv : v.endpoints = w.endpoints.modify n f) (hf : ∀ x : Endpoint, x.Alters allowed e (f x)) :
    Alters allowed w v e := by
  refine ⟨fun x hx => ?_, fun hx y hy => ?_⟩
  · rw [hv, List.getElem?_modify, hx]
    split
    · exact ⟨_, rfl, hf x⟩
    · exact ⟨_, rfl, .refl x⟩
  · rw [hv, List.getElem?_modify, hx] at hy
    split at hy <;> cases hy

theorem alters_set {n : EndpointId} {x z : Endpoint} (hv : v.endpoints = w.endpoints.set n z)
    (hx : w.endpoints[n]? = some x) (hz : x.Alters allowed n z) : Alters allowed w v e := by
  by_cases hn : n = e
  · subst hn
    refine ⟨fun y hy => ?_, fun hy => by cases hx.symm.trans hy⟩
    obtain rfl := Option.some.inj (hx.symm.trans hy)
    exact ⟨z, by rw [hv, List.getElem?_set_self (List.getElem?_eq_some_iff.mp hx).1], hz⟩
  · have hsame : v.endpoints[e]? = w.endpoints[e]? := by rw [hv, List.getElem?_set_ne hn]
    exact ⟨fun y hy => ⟨y, hsame.trans hy, .refl y⟩,
      fun hy z hz => by cases hy.symm.trans (hsame.symm.trans hz)⟩

theorem Atom.alters (ha : Atom allowed w v) (e : EndpointId) : Alters allowed w v e := by
  cases ha with
  | act _ _ hans =>
    cases hans with
    | system => exact alters_of_eq (observe_endpoints _ _)
    | @access _ n x c s hx hc =>
      exact alters_set (notes_same (e := n) s.notes _).2 hx (.access hc)
    | spawn => exact alters_modify rfl fun x => .tend _ _ x.replies
    | _ => exact alters_of_eq rfl
  | @invoke t th p i after =>
    cases i with
    | disconnect => exact alters_of_eq rfl
    | resolve d job error =>
      simp only [World.invoke, resolve, putThread]
      split
      · exact alters_modify rfl fun x => .tend x.workers x.owners _
      · exact alters_of_eq rfl
  | @panic t th =>
    simp only [World.panic, putThread]
    split
    · exact alters_of_eq rfl
    · exact alters_modify rfl (Endpoint.alters_abandon _)
  | @outside i _ hallowed hi ha =>
    cases outside_of_apply hi ha with
    | @make a s hr =>
      refine ⟨fun x hx => ⟨x, ?_, .refl x⟩, fun hx y hy => ⟨a, s, hallowed, hr, ?_⟩⟩
      · exact (List.getElem?_append_left (List.getElem?_eq_some_iff.mp hx).1).trans hx
      · have hy : (w.endpoints ++ [Endpoint.ofSettings s a.onDisconnect])[e]? = some y := hy
        rw [List.getElem?_append_right (List.getElem?_eq_none_iff.mp hx),
          List.getElem?_singleton] at hy
        split at hy <;> cases hy
        rfl
    | @operate _ x _ _ => exact alters_modify rfl fun x => .tend x.workers _ x.replies
    | @register _ _ _ _ _ hx => exact alters_set rfl hx (.register hallowed)
    | request | drop | release => exact alters_of_eq rfl
  | settle ha => exact alters_of_eq ha.endpoints

/-- A run with the keys that an endpoint gives out on the way, the first one first. -/
inductive Registers (e : EndpointId) : World → List UInt32 → Prop
  | empty : Registers e empty []
  | register {w v : World} {ks : List UInt32} {addr length : UInt64} {access : Access}
      {r : Region} : Registers e w ks → w.register e addr length access = some (v, r) →
      Registers e v (ks ++ [r.key])
  | other {w v : World} {ks : List UInt32} (i : Input) : Registers e w ks →
      (∀ addr length access, i ≠ .register e addr length access) → w.apply i = some v →
      Registers e v ks

structure Counts (w : World) (e : EndpointId) (ks : List UInt32) : Prop where
  next : ∀ x, w.endpoints[e]? = some x → x.nextKey = UInt32.ofNat (ks.length + 1)
  absent : w.endpoints[e]? = none → ks = []

theorem Counts.atom {ks : List UInt32} (h : w.Counts e ks) (ha : Atom allowed w v)
    (hn : ∀ addr length access, ¬ allowed (.register e addr length access)) : v.Counts e ks := by
  have halters := ha.alters e
  cases hx : w.endpoints[e]? with
  | none =>
    obtain rfl := h.absent hx
    refine ⟨fun y hy => ?_, fun _ => rfl⟩
    obtain ⟨a, s, -, -, rfl⟩ := halters.made hx y hy
    rfl
  | some x =>
    obtain ⟨y, hy, hxy⟩ := halters.ends x hx
    refine ⟨fun y' hy' => ?_, fun hnone => by cases hnone.symm.trans hy⟩
    obtain rfl := Option.some.inj (hy.symm.trans hy')
    rw [hxy.nextKey hn, h.next x hx]

/-- Keys count up from one. -/
theorem Registers.counts {ks : List UInt32} (h : Registers e w ks) :
    w.Queued ∧ w.Counts e ks ∧ ∀ n, n < ks.length → ks[n]? = some (UInt32.ofNat (n + 1)) := by
  induction h with
  | empty => exact ⟨queued_of_new rfl, ⟨fun x hx => by simp [World.empty] at hx, fun _ => rfl⟩,
      fun n hn => by cases hn⟩
  | @register w v ks addr length access r _ hr ih =>
    obtain ⟨hq, hcounts, hkeys⟩ := ih
    simp only [World.register, Option.map_eq_some_iff] at hr
    obtain ⟨x, hx, hr⟩ := hr
    have hnext := hcounts.next x hx
    obtain ⟨rfl, rfl⟩ := (Prod.mk.injEq ..).mp hr
    have hlt := (List.getElem?_eq_some_iff.mp hx).1
    refine ⟨hq.same rfl rfl, ⟨fun y hy => ?_, fun hnone => ?_⟩, fun n hn => ?_⟩
    · obtain rfl := Option.some.inj ((List.getElem?_set_self hlt).symm.trans hy)
      simp only [Endpoint.register, hnext, List.length_append, List.length_singleton]
      rw [UInt32.ofNat_add (ks.length + 1) 1]
      rfl
    · exact absurd hlt (by simpa [putEndpoint] using List.getElem?_eq_none_iff.mp hnone)
    · rw [List.length_append, List.length_singleton] at hn
      rcases Nat.lt_succ_iff_lt_or_eq.mp hn with hn | rfl
      · rw [List.getElem?_append_left hn, hkeys n hn]
      · rw [List.getElem?_append_right (Nat.le_refl _), Nat.sub_self]
        exact congrArg some hnext
  | @other w v ks i _ hi ha ih =>
    obtain ⟨hq, hcounts, hkeys⟩ := ih
    have hspec : Relation.ReflTransGen
        (Atom fun i => ∀ addr length access, i ≠ .register e addr length access) w v ∧ v.Queued :=
      apply_spec hq hi ha
    obtain ⟨hchain, hq'⟩ := hspec
    refine ⟨hq', ?_, hkeys⟩
    clear ha hq'
    induction hchain with
    | refl => exact hcounts
    | tail _ hatom ih => exact ih.atom hatom fun addr length access h => h addr length access rfl

theorem Registers.key_eq_iff {ks : List UInt32} (h : Registers e w ks) {m n : Nat}
    (hm : m < ks.length) (hn : n < ks.length) : ks[m] = ks[n] ↔ m ≡ n [MOD 2 ^ 32] := by
  obtain ⟨-, -, hkeys⟩ := h.counts
  have hkey : ∀ (k : Nat) (hk : k < ks.length), ks[k] = UInt32.ofNat (k + 1) := fun k hk =>
    (List.getElem?_eq_some_iff.mp (hkeys k hk)).2
  rw [hkey m hm, hkey n hn, ← UInt32.toNat_inj, UInt32.toNat_ofNat', UInt32.toNat_ofNat']
  exact ⟨Nat.ModEq.add_right_cancel' 1, Nat.ModEq.add_right 1⟩

theorem Registers.nodup {ks : List UInt32} (h : Registers e w ks) (hlen : ks.length ≤ 2 ^ 32) :
    ks.Nodup := by
  refine List.nodup_iff_getElem?_ne_getElem?.mpr fun m n hmn hn heq => ?_
  have hm : m < ks.length := Nat.lt_trans hmn hn
  rw [List.getElem?_eq_getElem hm, List.getElem?_eq_getElem hn, Option.some.injEq,
    h.key_eq_iff hm hn, Nat.ModEq, Nat.mod_eq_of_lt (by omega), Nat.mod_eq_of_lt (by omega)] at heq
  omega

theorem Registers.more {ks : List UInt32} {x : Endpoint} (h : Registers e w ks)
    (hx : w.endpoints[e]? = some x) (n : Nat) :
    ∃ v ks', Registers e v ks' ∧ ks'.length = ks.length + n := by
  induction n generalizing w ks x with
  | zero => exact ⟨w, ks, h, rfl⟩
  | succ n ih =>
    have hr : w.register e 0 0 .none = some (w.putEndpoint e (x.register 0 0 .none).1,
        (x.register 0 0 .none).2) := by
      rw [World.register, hx]
      rfl
    have hv : (w.putEndpoint e (x.register 0 0 .none).1).endpoints[e]? = some _ :=
      List.getElem?_set_self (List.getElem?_eq_some_iff.mp hx).1
    obtain ⟨v, ks', h', hlen⟩ := ih (h.register hr) hv
    exact ⟨v, ks', h', by rw [hlen, List.length_append, List.length_singleton]; omega⟩

theorem Registers.repeats {ks : List UInt32} {x : Endpoint} (h : Registers e w ks)
    (hx : w.endpoints[e]? = some x) : ∃ v ks', Registers e v ks' ∧ ¬ ks'.Nodup := by
  obtain ⟨v, ks', h', hlen⟩ := h.more hx (2 ^ 32 + 1)
  refine ⟨v, ks', h', fun hnodup => ?_⟩
  have hsame : ks'[0] = ks'[2 ^ 32] := (h'.key_eq_iff (by omega) (by omega)).mpr rfl
  have hindex := (hnodup.getElem_inj_iff).mp hsame
  omega

/-- The keys that an endpoint gives out are different as long as there are any left, and from then
on each one comes again whenever all have been given out once more. -/
theorem keys_unique_up_to_wrapping {ks : List UInt32} (h : Registers e w ks) :
    (ks.length ≤ 2 ^ 32 → ks.Nodup) ∧
    ∀ m n (hm : m < ks.length) (hn : n < ks.length), ks[m] = ks[n] ↔ m ≡ n [MOD 2 ^ 32] :=
  ⟨h.nodup, fun _ _ hm hn => h.key_eq_iff hm hn⟩

def bare : Endpoint := .ofSettings ⟨.server, .ofMillis 3000, 2, 2, "n", ⟨"/"⟩, 16⟩ none

theorem bare_registers : Registers 0 { empty with endpoints := [bare] } [] :=
  .other (.make ⟨.server, .ofMillis 3000, 2, 2, "n", ⟨"/"⟩, 16, none⟩) .empty (by simp) rfl

theorem first_keys_differ : ∃ v, Registers 0 v [1, 2] ∧ ([1, 2] : List UInt32).Nodup := by
  have hone := bare_registers.register (show World.register _ 0 4096 16 .none = some _ from rfl)
  have htwo := hone.register (show World.register _ 0 8192 16 .none = some _ from rfl)
  exact ⟨_, htwo, (keys_unique_up_to_wrapping htwo).1 (by decide)⟩

/-- A server that registers without end gives out a key twice. -/
theorem key_given_out_twice : ∃ v ks, Registers 0 v ks ∧ ¬ ks.Nodup :=
  bare_registers.repeats rfl

end World

end QueuePair

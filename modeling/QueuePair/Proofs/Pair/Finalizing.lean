import QueuePair.Proofs.Pair.Connecting

namespace QueuePair

open World

namespace Pair

open Kernel (Shifts)

variable (P : Pair)

/-- The steps of the rendezvous. -/
inductive Meets (r : Role) (w : World) :
    Mailbox.Rendezvous → World → Flow Mailbox.Rendezvous (Except Error Unit) → Prop
  | clock {d : Instant} : w.deadline? (P.settings r).timeout = some d →
      Meets r w .clock w (.more (.awaitBoth d))
  | noClock : w.deadline? (P.settings r).timeout = none → Meets r w .clock w (.more .overflowed)
  | both {d : Instant} {k : Kernel} : 2 ≤ w.kernel.gauge P.keys .attached →
      Shifts P.keys .attached 0 w.kernel k →
      Meets r w (.awaitBoth d) (w.withKernel k)
        (.more (if r.isServer then .takeGate d else .takeLast d))
  | bothLate {d : Instant} : Meets r w (.awaitBoth d) w (.done (.error .connectTimeout))
  | takeGate {d : Instant} {k : Kernel} : r = .server → Shifts P.keys .gate (-1) w.kernel k →
      Meets r w (.takeGate d) (w.withKernel k) (.more (.awaitZero d))
  | takeGateLate {d : Instant} : Meets r w (.takeGate d) w (.done (.error .connectTimeout))
  | zero {d : Instant} {k : Kernel} : w.kernel.gauge P.keys .gate = 0 →
      Shifts P.keys .gate 0 w.kernel k →
      Meets r w (.awaitZero d) (w.withKernel k) (.more .giveBack)
  | zeroLate {d : Instant} : Meets r w (.awaitZero d) w (.more (.undo .timeout))
  | giveBack {k : Kernel} : r = .server → Shifts P.keys .gate 1 w.kernel k →
      Meets r w .giveBack (w.withKernel k) (.done (.ok ()))
  | undo {e : Error} {k : Kernel} : Shifts P.keys .gate 1 w.kernel k →
      Meets r w (.undo e) (w.withKernel k) (.done (.error (Mailbox.Rendezvous.failure e)))
  | takeLast {d : Instant} {k : Kernel} : r = .client → w.kernel.gauge P.keys .gate = 1 →
      Shifts P.keys .gate (-1) w.kernel k →
      Meets r w (.takeLast d) (w.withKernel k) (.done (.ok ()))
  | takeLastLate {d : Instant} : Meets r w (.takeLast d) w (.done (.error .connectTimeout))

/-- The steps of a finalizing thread. -/
inductive Finishes (r : Role) (w : World) :
    Finalizing → World → Flow Finalizing (Except Error Unit) → Prop
  | ready {x : Endpoint} : w.endpoints[P.id r]? = some x → x.state = .connected →
      Finishes r w .check w (.more .readLink)
  | unready {x : Endpoint} : w.endpoints[P.id r]? = some x → x.state ≠ .connected →
      Finishes r w .check w (.done (.error (.invalidState .connected x.state)))
  | linked {x : Endpoint} {l : Link} : w.endpoints[P.id r]? = some x → x.link = some l →
      Finishes r w .readLink w (.more (.rendezvous l .clock))
  | unlinked {x : Endpoint} : w.endpoints[P.id r]? = some x → x.linkHolder = none →
      x.link = none → Finishes r w .readLink w (.more .unlinked)
  | refuse : Finishes r w .unlinked w (.done (.error .notConnected))
  | meet {l : Link} {s s' : Mailbox.Rendezvous} {v : World} : P.Meets r w s v (.more s') →
      Finishes r w (.rendezvous l s) v (.more (.rendezvous l s'))
  | met {l : Link} {s : Mailbox.Rendezvous} {v : World} {e : Except Error Unit} :
      P.Meets r w s v (.done e) → Finishes r w (.rendezvous l s) v (.done e)

variable {P} {r : Role} {w v : World} {t : ThreadId}

theorem added_one (i j : Nat) (d : Int) : added i [⟨j, d⟩] = if i = j then d else 0 := by
  simp [eq_comm]

theorem added_two (i j : Nat) (d e : Int) :
    added i [⟨j, d⟩, ⟨j, e⟩] = if i = j then d + e else 0 := by
  by_cases h : i = j
  · simp [h]
  · simp [h, Ne.symm h]

theorem attempt_zero {values after : List Nat} {i : Nat}
    (h : attempt values [⟨i, 0⟩] = .done after) : values.getD i 0 = 0 := by
  simp only [attempt, if_true] at h
  split at h
  · omega
  · cases h

theorem attempt_both {values after : List Nat} {i : Nat}
    (h : attempt values [⟨i, -2⟩, ⟨i, 2⟩] = .done after) : 2 ≤ values.getD i 0 := by
  have htwo : (-2 : Int) ≠ 0 := by decide
  simp only [attempt, if_neg htwo] at h
  split at h
  · cases h
  · omega

theorem attempt_last {values after : List Nat} {i : Nat} (hi : i < values.length)
    (h : attempt values [⟨i, -1⟩, ⟨i, 0⟩] = .done after) : values.getD i 0 = 1 := by
  have hone : (-1 : Int) ≠ 0 := by decide
  simp only [attempt, if_neg hone, if_true] at h
  split at h
  · cases h
  · rename_i hneg
    split at h
    · cases h
    · split at h
      · rename_i hz
        simp only [List.getD_eq_getElem?_getD, List.getElem?_set_self hi, Option.getD_some]
          at hz hneg ⊢
        omega
      · cases h

theorem meets_of_after {m : Mailbox} {s : Mailbox.Rendezvous}
    {f : Flow Mailbox.Rendezvous (Except Error Unit)} (hk : w.kernel.Intact P.keys)
    (hm : P.Box w.kernel r m) (hs : RendezvousFit r s)
    (h : w.After t (s.next m r.isServer (P.settings r).timeout) v f) : P.Meets r w s v f := by
  cases s with
  | clock =>
    obtain ⟨a, ⟨rfl, rfl⟩, rfl⟩ := h
    cases hd : v.deadline? (P.settings r).timeout with
    | none => exact .noClock hd
    | some d => exact .clock hd
  | overflowed => exact h.elim
  | awaitBoth d =>
    rcases hk.after_change (g := .attached) hm.set (fun i => added_two i _ _ _) (by simp)
      (by simp) h
      with ⟨k, u, values, hu, ha, hsh, rfl, rfl⟩ | ⟨-, rfl, rfl⟩
    · have hg := Kernel.gauge_eq (g := .attached) hm.set hu
      exact .both (hg ▸ attempt_both ha) hsh
    · exact .bothLate
  | takeGate d =>
    rcases hk.after_change (g := .gate) hm.set (fun i => added_one i _ _) (by simp) (by simp) h
      with ⟨k, u, values, hu, ha, hsh, rfl, rfl⟩ | ⟨-, rfl, rfl⟩
    · cases r with
      | server => exact .takeGate rfl hsh
      | client => exact hs.elim
    · exact .takeGateLate
  | awaitZero d =>
    rcases hk.after_change (g := .gate) hm.set (fun i => added_one i _ _) (by simp) (by simp) h
      with ⟨k, u, values, hu, ha, hsh, rfl, rfl⟩ | ⟨-, rfl, rfl⟩
    · exact .zero ((Kernel.gauge_eq hm.set hu).trans (attempt_zero ha)) hsh
    · exact .zeroLate
  | giveBack =>
    obtain ⟨k, hsh, rfl, rfl⟩ := hk.after_add (g := .gate) hm.set (by decide) h
    cases r with
    | server => exact .giveBack rfl hsh
    | client => exact hs.elim
  | undo e =>
    obtain ⟨k, hsh, rfl, rfl⟩ := hk.after_add (g := .gate) hm.set (by decide) h
    exact .undo hsh
  | takeLast d =>
    rcases hk.after_change (g := .gate) hm.set (fun i => added_two i _ _ _) (by simp) (by simp) h
      with ⟨k, u, values, hu, ha, hsh, rfl, rfl⟩ | ⟨-, rfl, rfl⟩
    · obtain ⟨u', hu', hlen⟩ := hk.wide .gate _ hm.set
      obtain rfl := Option.some.inj (hu.symm.trans hu')
      cases r with
      | server => exact hs.elim
      | client =>
        refine .takeLast rfl ((Kernel.gauge_eq hm.set hu).trans (attempt_last ?_ ha)) hsh
        exact hlen ▸ Gauge.gate.index_lt
    · exact .takeLastLate

theorem finishes_of_after {s : Finalizing} {f : Flow Finalizing (Except Error Unit)}
    (hk : w.kernel.Intact P.keys)
    (he : ∀ x, w.endpoints[P.id r]? = some x → P.EndFit w.kernel r x)
    (hs : P.FinalizingFit w.kernel r s)
    (h : w.After t (s.next (P.party r)) v f) : P.Finishes r w s v f := by
  cases s with
  | check =>
    obtain ⟨x, hx, rfl, rfl⟩ := after_readState h
    split
    · rename_i hc
      exact .ready hx hc
    · rename_i hc
      exact .unready hx hc
  | readLink =>
    obtain ⟨a, ⟨x, sec, hx, hc, rfl, rfl⟩, rfl⟩ := h
    simp only [Endpoint.call, Endpoint.underLink] at hc
    split at hc
    · cases hc
    · rename_i hfree
      cases hc
      simp only [List.foldl_nil]
      rw [putEndpoint_self hx]
      cases hl : x.link with
      | none => exact .unlinked hx (by simpa using hfree) hl
      | some l => exact .linked hx hl
  | unlinked =>
    obtain ⟨x, hx, rfl, rfl⟩ := after_readState h
    have ho := (he x hx).open_
    cases hst : x.state with
    | closed => exact absurd hst ho
    | init | connected => exact .refuse
  | rendezvous l s =>
    obtain ⟨f', h', rfl⟩ := h.of_map
    rw [party_settings, P.role_settings] at h'
    have hm := meets_of_after hk hs.1.box hs.2 h'
    cases f' with
    | more s' => exact .meet hm
    | done e => exact .met hm

end Pair

end QueuePair

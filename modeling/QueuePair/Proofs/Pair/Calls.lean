import QueuePair.Proofs.After
import QueuePair.Proofs.Pair.Dues

namespace QueuePair

open World

structure Kernel.Intact (k : Kernel) (K : Keys) : Prop where
  wide : k.Wide K
  small : ∀ g, k.gauge K g ≤ 2

namespace Kernel.Intact

variable {k : Kernel} {K : Keys} {w v : World} {t : ThreadId} {σ : Type} {s : σ}

/-- Small changes of the counters of a pair do not overflow. -/
theorem ne_overflows {g : Gauge} {set : SetId} {s : SemaphoreSet} {changes : List Change}
    (h : k.Intact K) (hset : k.setOf? (g.key K) = some set) (hs : k.live? set = some s)
    (hc : ∀ c ∈ changes, c.delta ≤ 2) (hl : changes.length ≤ 2) :
    attempt s.values changes ≠ .overflows := by
  refine attempt_ne_overflows (b := 2) (fun i => ?_) hc ?_
  · obtain ⟨s', hs', hlen⟩ := h.wide g set hset
    obtain rfl := Option.some.inj (hs.symm.trans hs')
    by_cases hi : ∃ g' : Gauge, g'.key K = g.key K ∧ g'.index = i
    · obtain ⟨g', hk, rfl⟩ := hi
      have hg := h.small g'
      rwa [gauge_eq (by rw [hk, hset]) hs] at hg
    · have hout : s.values.length ≤ i := by
        rw [hlen]
        refine Nat.le_of_not_lt fun hlt => hi ?_
        cases g with
        | signal r =>
          exact ⟨.signal r, rfl, by simp only [Gauge.width] at hlt; simp [Gauge.index]; omega⟩
        | gate | vacancy | attached =>
          have h3 : i = 0 ∨ i = 1 ∨ i = 2 := by
            simp only [Gauge.width, Mailbox.semaphoreCount] at hlt
            omega
          rcases h3 with rfl | rfl | rfl
          · exact ⟨.gate, rfl, rfl⟩
          · exact ⟨.vacancy, rfl, rfl⟩
          · exact ⟨.attached, rfl, rfl⟩
      simp [List.getD_eq_getElem?_getD, hout]
  · have hmax : semaphoreMax = 32767 := rfl
    omega

theorem after_change {g : Gauge} {d : Int} {set : SetId} {changes : List Change}
    {deadline : Option Instant} {next : Except Error Unit → σ} (h : w.kernel.Intact K)
    (hset : w.kernel.setOf? (g.key K) = some set)
    (hd : ∀ i, added i changes = if i = g.index then d else 0)
    (hc : ∀ c ∈ changes, c.delta ≤ 2) (hl : changes.length ≤ 2)
    (ha : w.After t (.call (.change set changes deadline) next) v s) :
    (∃ k u values, w.kernel.live? set = some u ∧ attempt u.values changes = .done values ∧
      Shifts K g d w.kernel k ∧ v = { w with kernel := k } ∧ s = next (.ok ())) ∨
    (deadline.isSome = true ∧ v = w ∧ s = next (.error .timeout)) := by
  obtain ⟨a, ⟨u, values, hu, hat, rfl, rfl⟩ | ⟨u, hu, hat, -⟩ | ⟨hu, -⟩ |
    ⟨hdl, rfl, rfl⟩, rfl⟩ := ha
  · exact .inl ⟨_, u, values, hu, hat, shifts_grant h.wide hset hu hat hd, rfl, rfl⟩
  · exact absurd hat (h.ne_overflows hset hu hc hl)
  · obtain ⟨u, -, -, -, hlive⟩ := setOf?_eq_some hset
    cases hu.symm.trans hlive
  · exact .inr ⟨hdl, rfl, rfl⟩

theorem after_add {g : Gauge} {d : Int} {h : SemaphoreHandle} {next : Except Error Unit → σ}
    (hk : w.kernel.Intact K) (hset : w.kernel.setOf? (g.key K) = some h.set) (hd : d ≤ 2)
    (ha : w.After t (.add h g.index d next) v s) :
    ∃ k, Shifts K g d w.kernel k ∧ v = { w with kernel := k } ∧ s = next (.ok ()) := by
  have hadd : ∀ i, added i [⟨g.index, d⟩] = if i = g.index then d else 0 := by
    intro i
    by_cases hi : i = g.index <;> simp [hi, eq_comm]
  rcases hk.after_change hset hadd (by simp [hd]) (by simp) ha with
    ⟨k, _, _, _, _, hs, hv, hn⟩ | ⟨hn, -⟩
  · exact ⟨k, hs, hv, hn⟩
  · cases hn

end Kernel.Intact

end QueuePair

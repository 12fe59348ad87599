import Mathlib.Logic.Function.Basic
import QueuePair.Proofs.Queue
import QueuePair.Proofs.Replay

namespace QueuePair

def serials (h : List Event) (e : EndpointId) (d : Direction) : List Nat :=
  (replay (Event.accepted? e d) h).map (·.serial)

theorem eraseP_serial {jobs : List Job} (hn : (jobs.map (·.serial)).Nodup) (serial : Nat) :
    jobs.eraseP (fun job => job.serial = serial) =
      jobs.filter fun job => job.serial ≠ serial := by
  induction jobs with
  | nil => rfl
  | cons job jobs ih =>
    rw [List.map_cons, List.nodup_cons] at hn
    by_cases hj : job.serial = serial
    · have hrest : ∀ j ∈ jobs, decide (j.serial ≠ serial) = true := fun j hm =>
        decide_eq_true fun he => hn.1 (List.mem_map.mpr ⟨j, hm, he.trans hj.symm⟩)
      rw [List.eraseP_cons_of_pos (by simp [hj]), List.filter_cons_of_neg (by simp [hj]),
        List.filter_eq_self.mpr hrest]
    · rw [List.eraseP_cons_of_neg (by simp [hj]), List.filter_cons_of_pos (by simp [hj]),
        ih hn.2]

/-- Queues and record of an endpoint agree. A serial number is in use once: by an accepted job, or
by a thread that is about to post one. -/
structure Books (e : EndpointId) (h : List Event) (queue : Direction → WorkQueue Job) (next : Nat)
    (posting : Direction → Nat → Nat) : Prop where
  tidy : ∀ d, (queue d).Tidy
  withdrawn : ∀ d, ∀ s ∈ replay (Event.withdrawn? e d) h, s ∈ serials h e d
  numbers : ∀ d n, (serials h e d).count n + posting d n ≤ if n < next then 1 else 0
  taken : ∀ d, ∃ out, kept h e d = out ++ (queue d).items ∧
    out.map (·.serial) = replay (Event.taken? e d) h
  honest : Honest e h

namespace Books

variable {e : EndpointId} {h : List Event} {queue queue' : Direction → WorkQueue Job}
  {next next' : Nat}
  {posting posting' : Direction → Nat → Nat} {d : Direction} {ev : Event} {job : Job}
  {q : WorkQueue Job} {slot serial : Nat}

theorem fifo_eq (b : Books e h queue next posting) (d : Direction) :
    fifo h e d = (queue d).items := by
  obtain ⟨out, hk, hs⟩ := b.taken d
  rw [fifo, hk, ← hs, List.length_map, List.drop_left]

theorem nodup (b : Books e h queue next posting) (d : Direction) : (serials h e d).Nodup := by
  refine List.nodup_iff_count.mpr fun n => ?_
  have hn := b.numbers d n
  split at hn <;> omega

theorem kept_nodup (b : Books e h queue next posting) (d : Direction) :
    ((kept h e d).map (·.serial)).Nodup :=
  (b.nodup d).sublist (List.filter_sublist.map _)

theorem congr (b : Books e h queue next posting) (hq : ∀ d, queue' d = queue d)
    (hn : next' = next) (hp : ∀ d n, posting' d n ≤ posting d n) :
    Books e h queue' next' posting' where
  tidy := fun d => hq d ▸ b.tidy d
  withdrawn := b.withdrawn
  numbers := fun d n => by
    have hold := b.numbers d n
    have hle := hp d n
    rw [hn]
    omega
  taken := fun d => hq d ▸ b.taken d
  honest := b.honest

theorem silent (b : Books e h queue next posting) (hs : ev.Silent e) :
    Books e (ev :: h) queue next posting := by
  have hserials : ∀ d, serials (ev :: h) e d = serials h e d := fun d => by
    simp [serials, hs.accepted]
  refine ⟨b.tidy, fun d => ?_, fun d n => ?_, fun d => ?_, hs.honest b.honest⟩
  · rw [hserials]
    simpa [hs.withdrawn] using b.withdrawn d
  · rw [hserials]
    exact b.numbers d n
  · obtain ⟨out, hk, ht⟩ := b.taken d
    exact ⟨out, (kept_of_none (hs.accepted d) (hs.withdrawn d)).trans hk, by
      simpa [hs.taken] using ht⟩

theorem number (b : Books e h queue next posting) (hp : ∀ d n,
    posting' d n ≤ posting d n + if n = next then 1 else 0) :
    Books e h queue (next + 1) posting' where
  tidy := b.tidy
  withdrawn := b.withdrawn
  numbers := fun d n => by
    have hold := b.numbers d n
    have hnew := hp d n
    by_cases hn : n = next
    · subst hn
      simp at hold hnew ⊢
      omega
    · rw [if_neg hn] at hnew
      split at hold
      · rw [if_pos (by omega)]
        omega
      · omega
  taken := b.taken
  honest := b.honest

theorem of_items (b : Books e h queue next posting) (ht : q.Tidy) (hi : q.items = (queue d).items) :
    Books e h (Function.update queue d q) next posting where
  tidy := fun d' => by
    rw [Function.update_apply]
    split
    · exact ht
    · exact b.tidy d'
  withdrawn := b.withdrawn
  numbers := fun d' n => by
    exact b.numbers d' n
  taken := fun d' => by
    rw [Function.update_apply]
    split
    · rename_i hd
      rw [hi, ← hd]
      exact b.taken d'
    · exact b.taken d'
  honest := b.honest

/-- A worker takes the oldest job. -/
theorem take (b : Books e h queue next posting) (hq : (queue d).next = (some (slot, job), q)) :
    Books e (.noted e (.taken d job.serial) :: h) (Function.update queue d q) next posting := by
  obtain ⟨ht, -, hcase⟩ := (b.tidy d).next hq
  have hitems : (queue d).items = job :: q.items := by
    rcases hcase with ⟨hr, -⟩ | ⟨i, a, hr, hi, -⟩
    · cases hr
    · cases hr
      exact hi
  have haccepted : ∀ d', (Event.noted e (.taken d job.serial)).accepted? e d' = none :=
    fun _ => rfl
  have hserials : ∀ d', serials (.noted e (.taken d job.serial) :: h) e d' = serials h e d' :=
    fun d' => by simp [serials, haccepted]
  refine ⟨fun d' => ?_, fun d' => ?_, fun d' n => ?_, fun d' => ?_, b.honest, nofun, ?_⟩
  · rw [Function.update_apply]
    split
    · exact ht
    · exact b.tidy d'
  · rw [hserials]
    simpa [Event.withdrawn?] using b.withdrawn d'
  · rw [hserials]
    exact b.numbers d' n
  · obtain ⟨out, hk, hs⟩ := b.taken d'
    rw [Function.update_apply, kept_of_none rfl rfl]
    split
    · rename_i hd
      subst hd
      exact ⟨out ++ [job], by simp [hk, hitems], by simp [hs, Event.taken?]⟩
    · rename_i hd
      exact ⟨out, hk, by simpa [Event.taken?, Ne.symm hd] using hs⟩
  · rintro d' serial ⟨⟩
    exact ⟨job, q.items, (b.fifo_eq d).trans hitems, rfl⟩

theorem miss (b : Books e h queue next posting) (hq : (queue .receive).next = (none, q)) :
    Books e (.noted e .missed :: h) (Function.update queue .receive q) next posting := by
  obtain ⟨ht, -, hcase⟩ := (b.tidy .receive).next hq
  have hitems : (queue .receive).items = [] ∧ q.items = [] := by
    rcases hcase with ⟨-, h₁, h₂⟩ | ⟨i, a, hr, -⟩
    · exact ⟨h₁, h₂⟩
    · cases hr
  have b' := b.of_items (d := .receive) ht (hitems.2.trans hitems.1.symm)
  have hserials : ∀ d', serials (.noted e .missed :: h) e d' = serials h e d' :=
    fun d' => by simp [serials, Event.accepted?]
  refine ⟨b'.tidy, fun d' => ?_, fun d' n => ?_, fun d' => ?_, b.honest, fun _ => ?_, by simp⟩
  · rw [hserials]
    simpa [Event.withdrawn?] using b'.withdrawn d'
  · rw [hserials]
    exact b'.numbers d' n
  · obtain ⟨out, hk, hs⟩ := b'.taken d'
    exact ⟨out, (kept_of_none rfl rfl).trans hk, by simpa [Event.taken?] using hs⟩
  · exact (b.fifo_eq .receive).trans hitems.1

/-- A job is queued. -/
theorem accept (b : Books e h queue next posting) (hq : (queue d).post job = some q)
    (hp : ∀ d' n, posting' d' n + (if d' = d ∧ n = job.serial then 1 else 0) ≤ posting d' n) :
    Books e (.noted e (.accepted d job) :: h) (Function.update queue d q) next posting' ∧
      kept (.noted e (.accepted d job) :: h) e d = kept h e d ++ [job] := by
  obtain ⟨ht, hitems, -⟩ := (b.tidy d).post hq
  have hfresh : job.serial ∉ serials h e d := by
    intro hm
    have hcount := List.count_pos_iff.mpr hm
    have hn := b.numbers d job.serial
    have hle := hp d job.serial
    simp only [and_self, if_true] at hle
    split at hn <;> omega
  have hkept : kept (.noted e (.accepted d job) :: h) e d = kept h e d ++ [job] :=
    kept_accepted fun hm => hfresh (b.withdrawn d _ hm)
  refine ⟨⟨fun d' => ?_, fun d' s hs => ?_, fun d' n => ?_, fun d' => ?_, b.honest, nofun, nofun⟩,
    hkept⟩
  · rw [Function.update_apply]
    split
    · exact ht
    · exact b.tidy d'
  · have hold := b.withdrawn d' s (by simpa [Event.withdrawn?] using hs)
    simp only [serials, replay_cons, List.map_append]
    exact List.mem_append_left _ hold
  · have hold := b.numbers d' n
    have hle := hp d' n
    have hcount : (serials (.noted e (.accepted d job) :: h) e d').count n =
        (serials h e d').count n + if d' = d ∧ n = job.serial then 1 else 0 := by
      by_cases hd : d = d'
      · subst hd
        by_cases hn : n = job.serial
        · subst hn
          simp [serials, Event.accepted?, List.count_append]
        · simp [serials, Event.accepted?, List.count_append, hn, Ne.symm hn]
      · simp [serials, Event.accepted?, hd, Ne.symm hd]
    omega
  · obtain ⟨out, hk, hs⟩ := b.taken d'
    rw [Function.update_apply]
    split
    · rename_i hd
      subst hd
      exact ⟨out, by rw [hkept, hk, hitems, List.append_assoc], by simpa [Event.taken?] using hs⟩
    · rename_i hd
      exact ⟨out, (kept_accepted_ne (Ne.symm hd)).trans hk, by simpa [Event.taken?] using hs⟩

/-- A caller takes its job back: the one with its number, which no worker took. -/
theorem withdraw (b : Books e h queue next posting)
    (hq : (queue d).cancel (·.serial = serial) = (some job, q)) :
    Books e (.noted e (.withdrawn d serial) :: h) (Function.update queue d q) next posting ∧
      ∀ out, kept h e d = out ++ (queue d).items →
        kept (.noted e (.withdrawn d serial) :: h) e d = out ++ q.items := by
  obtain ⟨ht, -, hfind, hitems⟩ := (b.tidy d).cancel hq
  have hmem : job ∈ (queue d).items := List.mem_of_find?_eq_some hfind.symm
  have hserial : job.serial = serial := by simpa using List.find?_some hfind.symm
  have hkept : ∀ out, kept h e d = out ++ (queue d).items →
      kept (.noted e (.withdrawn d serial) :: h) e d = out ++ q.items := by
    intro out hk
    have hn := b.kept_nodup d
    rw [hk, List.map_append, List.nodup_append] at hn
    have hout : ∀ j ∈ out, decide (j.serial ≠ serial) = true := fun j hj =>
      decide_eq_true fun he => hn.2.2 _ (List.mem_map_of_mem hj) _ (List.mem_map_of_mem hmem)
        (he.trans hserial.symm)
    rw [kept_withdrawn, hk, List.filter_append, List.filter_eq_self.mpr hout, hitems,
      eraseP_serial hn.2.1]
  have hserials : ∀ d', serials (.noted e (.withdrawn d serial) :: h) e d' = serials h e d' :=
    fun d' => by simp [serials, Event.accepted?]
  refine ⟨⟨fun d' => ?_, fun d' s hs => ?_, fun d' n => ?_, fun d' => ?_, b.honest, by simp,
    by simp⟩,
    hkept⟩
  · rw [Function.update_apply]
    split
    · exact ht
    · exact b.tidy d'
  · rw [hserials]
    rw [replay_cons, List.mem_append] at hs
    rcases hs with hs | hs
    · exact b.withdrawn d' s hs
    · simp only [Event.withdrawn?, Option.mem_toList] at hs
      split at hs
      · rename_i hd
        cases hs
        obtain ⟨-, rfl⟩ := hd
        obtain ⟨out, hk, -⟩ := b.taken d
        have hjob : job ∈ kept h e d := hk ▸ List.mem_append_right out hmem
        exact List.mem_map.mpr ⟨job, (List.mem_filter.mp hjob).1, hserial⟩
      · cases hs
  · rw [hserials]
    exact b.numbers d' n
  · obtain ⟨out, hk, hs⟩ := b.taken d'
    rw [Function.update_apply]
    split
    · rename_i hd
      subst hd
      exact ⟨out, hkept out hk, by simpa [Event.taken?] using hs⟩
    · rename_i hd
      exact ⟨out, (kept_withdrawn_ne (Ne.symm hd)).trans hk, by simpa [Event.taken?] using hs⟩

end Books

end QueuePair

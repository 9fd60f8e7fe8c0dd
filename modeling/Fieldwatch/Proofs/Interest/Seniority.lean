import Fieldwatch.Proofs.Interest.Hearing
import Mathlib.Data.Nat.Find
import Mathlib.Data.Set.Card

/-! An audience as the history of the calls made on it. Whether `w` sees `s` is decided by the last
call that has to do with the two; those who see `s` are listed in the order in which they came to
do so. -/

namespace Fieldwatch.Interest

inductive Call where
  | observe (watcher : EntityId) (g : Sighting)
  | forget (id : EntityId)

namespace Call

variable (w s : EntityId)

def concerns : Call → Bool
  | observe v g => v = w && g.subject = s
  | forget id => id = w || id = s

def shows : Call → Bool
  | observe _ g => g.kind ∈ [.enter, .move, .snapshot]
  | forget _ => false

def admits (c : Call) : Bool := c.concerns w s && c.shows

def ends (c : Call) : Bool := c.concerns w s && !c.shows

variable {w s} {c : Call}

theorem shows_observe (v : EntityId) (g : Sighting) :
    (observe v g).shows = true ↔ g.kind ≠ .leave := by cases h : g.kind <;> simp [shows, h]

theorem concerns_of_admits (h : c.admits w s) : c.concerns w s := (Bool.and_eq_true_iff.1 h).1

theorem concerns_of_ends (h : c.ends w s) : c.concerns w s := (Bool.and_eq_true_iff.1 h).1

theorem admits_or_ends (h : c.concerns w s) : c.admits w s ∨ c.ends w s := by
  unfold admits ends
  cases c.shows <;> simp [h]

theorem not_ends_of_admits (h : c.admits w s) (v : EntityId) : ¬ c.ends v s := by
  have hs : c.shows := (Bool.and_eq_true_iff.1 h).2
  simp [ends, hs]

end Call

/-- `w` has come to see `s` with call `n`, and has seen it since: no call after that ended it, and
all that it was shown before came to an end before. -/
structure BeganAt (calls : List Call) (w s : EntityId) (n : ℕ) : Prop where
  admitted : ∃ c, calls[n]? = some c ∧ c.admits w s
  lasts : ∀ k c, n < k → calls[k]? = some c → ¬ c.ends w s
  anew : ∀ j < n, ∀ c, calls[j]? = some c → c.admits w s →
    ∃ k d, j < k ∧ k < n ∧ calls[k]? = some d ∧ d.ends w s

section Beginnings

variable {calls : List Call} {w s : EntityId} {m n : ℕ} {c : Call}

theorem BeganAt.lt_length (h : BeganAt calls w s n) : n < calls.length := by
  obtain ⟨c, hc, -⟩ := h.admitted
  exact (List.getElem?_eq_some_iff.1 hc).1

theorem BeganAt.le (hm : BeganAt calls w s m) (hn : BeganAt calls w s n) : n ≤ m := by
  refine le_of_not_gt fun hlt => ?_
  obtain ⟨c, hc, ha⟩ := hm.admitted
  obtain ⟨k, d, hk, -, hd, he⟩ := hn.anew m hlt c hc ha
  exact hm.lasts k d hk hd he

theorem BeganAt.unique (hm : BeganAt calls w s m) (hn : BeganAt calls w s n) : m = n :=
  le_antisymm (hn.le hm) (hm.le hn)

theorem exists_beganAt (hc : calls[n]? = some c) (ha : c.admits w s)
    (hl : ∀ k d, n < k → calls[k]? = some d → ¬ d.ends w s) : ∃ m, BeganAt calls w s m := by
  classical
  have hex : ∃ m, (∃ c : Call, calls[m]? = some c ∧ c.admits w s) ∧
      ∀ (k : ℕ) (d : Call), m < k → calls[k]? = some d → ¬ d.ends w s := ⟨n, ⟨c, hc, ha⟩, hl⟩
  obtain ⟨⟨e, he, hea⟩, hlast⟩ := Nat.find_spec hex
  refine ⟨Nat.find hex, ⟨e, he, hea⟩, hlast, fun j hj d hd hda => ?_⟩
  have hnot := Nat.find_min hex hj
  push Not at hnot
  obtain ⟨k, b, hk, hb, hend⟩ := hnot ⟨d, hd, hda⟩
  refine ⟨k, b, hk, lt_of_le_of_ne (le_of_not_gt fun hgt => hlast k b hgt hb hend) ?_, hb, hend⟩
  -- the call with which it begins cannot be the one that ended what was before
  rintro rfl
  obtain rfl : e = b := Option.some_inj.1 (he.symm.trans hb)
  exact Call.not_ends_of_admits hea w hend

theorem BeganAt.concat (h : BeganAt calls w s n) (hc : ¬ c.ends w s) :
    BeganAt (calls ++ [c]) w s n := by
  obtain ⟨a, ha, hadm⟩ := h.admitted
  refine ⟨⟨a, getElem?_append_of_some ha, hadm⟩, fun k d hk hd => ?_, fun j hj d hd hda => ?_⟩
  · rcases getElem?_concat_iff.1 hd with hd | ⟨-, rfl⟩
    · exact h.lasts k d hk hd
    · exact hc
  · rcases getElem?_concat_iff.1 hd with hd | ⟨rfl, -⟩
    · obtain ⟨k, e, hjk, hkn, he, hend⟩ := h.anew j hj d hd hda
      exact ⟨k, e, hjk, hkn, getElem?_append_of_some he, hend⟩
    · exact absurd h.lt_length hj.not_gt

theorem beganAt_length (hc : c.admits w s) (hnone : ∀ m, ¬ BeganAt calls w s m) :
    BeganAt (calls ++ [c]) w s calls.length := by
  refine ⟨⟨c, List.getElem?_concat_length, hc⟩, fun k d hk hd => ?_, fun j hj d hd hda => ?_⟩
  · have hlen := (List.getElem?_eq_some_iff.1 hd).1
    rw [List.length_append, List.length_singleton] at hlen
    omega
  · rw [List.getElem?_append_left hj] at hd
    -- had nothing ended what call `j` showed, it would have begun before
    by_contra hno
    push Not at hno
    obtain ⟨m, hm⟩ := exists_beganAt hd hda fun k e hk he hend =>
      hno k e hk (List.getElem?_eq_some_iff.1 he).1 (getElem?_append_of_some he) hend
    exact hnone m hm

theorem BeganAt.of_concat (h : BeganAt (calls ++ [c]) w s n) (hn : n < calls.length) :
    BeganAt calls w s n := by
  obtain ⟨a, ha, hadm⟩ := h.admitted
  rw [List.getElem?_append_left hn] at ha
  refine ⟨⟨a, ha, hadm⟩, fun k d hk hd => h.lasts k d hk (getElem?_append_of_some hd), ?_⟩
  intro j hj d hd hda
  obtain ⟨k, e, hjk, hkn, he, hend⟩ := h.anew j hj d (getElem?_append_of_some hd) hda
  rw [List.getElem?_append_left (hkn.trans hn)] at he
  exact ⟨k, e, hjk, hkn, he, hend⟩

theorem exists_beganAt_concat : (∃ n, BeganAt (calls ++ [c]) w s n) ↔
    if c.concerns w s then c.shows = true else ∃ n, BeganAt calls w s n := by
  by_cases hc : c.concerns w s
  · rw [if_pos hc]
    constructor
    · rintro ⟨n, h⟩
      rcases Call.admits_or_ends hc with ha | he
      · exact (Bool.and_eq_true_iff.1 ha).2
      · rcases (Nat.le_of_lt_succ (by simpa using h.lt_length)).lt_or_eq with hn | rfl
        · exact absurd he (h.lasts _ c hn List.getElem?_concat_length)
        · obtain ⟨a, ha, hadm⟩ := h.admitted
          obtain rfl : c = a := Option.some_inj.1 (List.getElem?_concat_length.symm.trans ha)
          exact absurd he (Call.not_ends_of_admits hadm w)
    · intro hs
      have ha : c.admits w s := Bool.and_eq_true_iff.2 ⟨hc, hs⟩
      by_cases hold : ∃ n, BeganAt calls w s n
      · obtain ⟨n, hn⟩ := hold
        exact ⟨n, hn.concat (Call.not_ends_of_admits ha w)⟩
      · exact ⟨_, beganAt_length ha (not_exists.1 hold)⟩
  · rw [if_neg hc]
    refine ⟨fun ⟨n, h⟩ => ⟨n, h.of_concat ?_⟩, fun ⟨n, h⟩ =>
      ⟨n, h.concat fun he => hc (Call.concerns_of_ends he)⟩⟩
    obtain ⟨a, ha, hadm⟩ := h.admitted
    rcases getElem?_concat_iff.1 ha with ha | ⟨-, rfl⟩
    · exact (List.getElem?_eq_some_iff.1 ha).1
    · exact absurd (Call.concerns_of_admits hadm) hc

theorem exists_beganAt_iff_last (calls : List Call) (w s : EntityId) :
    (∃ n, BeganAt calls w s n) ↔ (calls.filter (·.concerns w s)).getLast?.any Call.shows := by
  induction calls using List.reverseRecOn with
  | nil =>
    refine iff_of_false ?_ Bool.noConfusion
    rintro ⟨n, h⟩
    exact absurd h.lt_length (Nat.not_lt_zero n)
  | append_singleton calls c ih =>
    rw [exists_beganAt_concat, List.filter_append]
    by_cases hc : c.concerns w s
    · rw [if_pos hc, List.filter_cons_of_pos hc, List.filter_nil, List.getLast?_concat]
      rfl
    · rw [if_neg hc, List.filter_cons_of_neg hc, List.filter_nil, List.append_nil, ih]

end Beginnings

namespace Audience

def note (x : Audience) : Call → Audience
  | .observe w g => x.observe w g
  | .forget id => x.forget id

def after (calls : List Call) : Audience := calls.foldl note {}

variable {calls : List Call}

theorem after_concat (calls : List Call) (c : Call) :
    after (calls ++ [c]) = (after calls).note c := List.foldl_concat ..

theorem mem_of_note (x : Audience) (w s : EntityId) (c : Call) :
    w ∈ (x.note c).of s ↔ if c.concerns w s then c.shows = true else w ∈ x.of s := by
  cases c with
  | observe v g =>
    rw [note, mem_of_observe, Call.shows_observe]
    simp [Call.concerns]
  | forget id =>
    rw [note, of_forget]
    by_cases hs : s = id
    · simp [hs, Call.concerns, Call.shows]
    · by_cases hw : w = id
      · simp [hs, hw, Call.concerns, Call.shows]
      · simp [hs, hw, Ne.symm hs, Ne.symm hw, Call.concerns]

theorem mem_of_after (calls : List Call) (w s : EntityId) :
    w ∈ (after calls).of s ↔ ∃ n, BeganAt calls w s n := by
  induction calls using List.reverseRecOn with
  | nil =>
    refine iff_of_false (by simp [after, of]) ?_
    rintro ⟨n, h⟩
    exact absurd h.lt_length (Nat.not_lt_zero n)
  | append_singleton calls c ih => rw [after_concat, mem_of_note, ih, exists_beganAt_concat]

/-- A call takes out those for whom it ends what they saw, or adds one at the end who comes to see
the subject; the others stay as they stand. -/
theorem of_note_cases (x : Audience) (s : EntityId) (c : Call) :
    (x.note c).of s = (x.of s).filter (!c.ends · s) ∨
      ∃ w, c.admits w s ∧ w ∉ x.of s ∧ (x.note c).of s = x.of s ++ [w] := by
  cases c with
  | observe w g =>
    rw [note, of_observe]
    by_cases hs : s = g.subject
    · rw [if_pos hs]
      by_cases hk : g.kind = .leave
      · left
        rw [if_pos hk]
        congr 1
        funext v
        simp [Call.ends, Call.concerns, Call.shows, hs, hk, eq_comm]
      · have hshows : (Call.observe w g).shows := (Call.shows_observe w g).2 hk
        rw [if_neg hk]
        split
        · left
          refine (List.filter_eq_self.2 fun v _ => ?_).symm
          simp [Call.ends, hshows]
        · next hw =>
          exact .inr ⟨w, by simp [Call.admits, Call.concerns, hshows, hs], hw, rfl⟩
    · left
      rw [if_neg hs]
      refine (List.filter_eq_self.2 fun v _ => ?_).symm
      simp [Call.ends, Call.concerns, Ne.symm hs]
  | forget id =>
    left
    rw [note, of_forget]
    split
    · next hs =>
      refine (List.filter_eq_nil_iff.2 fun v _ => ?_).symm
      simp [Call.ends, Call.concerns, Call.shows, hs]
    · next hs =>
      congr 1
      funext v
      simp [Call.ends, Call.concerns, Call.shows, Ne.symm hs, eq_comm]

def Precedes (calls : List Call) (s v w : EntityId) : Prop :=
  ∃ m n, BeganAt calls v s m ∧ BeganAt calls w s n ∧ m < n

theorem pairwise_of_after (calls : List Call) (s : EntityId) :
    ((after calls).of s).Pairwise (Precedes calls s) := by
  induction calls using List.reverseRecOn with
  | nil => simp [after, of]
  | append_singleton calls c ih =>
    rw [after_concat]
    rcases of_note_cases (after calls) s c with hold | ⟨w, ha, hw, hnew⟩
    · -- whoever is left has not begun anew
      rw [hold]
      refine List.Pairwise.imp_of_mem (fun {v w} hv hw h => ?_) (ih.filter _)
      obtain ⟨m, n, hm, hn, hlt⟩ := h
      have hv' : ¬ c.ends v s := by simpa using (List.mem_filter.1 hv).2
      have hw' : ¬ c.ends w s := by simpa using (List.mem_filter.1 hw).2
      exact ⟨m, n, hm.concat hv', hn.concat hw', hlt⟩
    · -- the new one begins with this call, all others began before
      have hstays : ∀ v, ¬ c.ends v s := Call.not_ends_of_admits ha
      have hbegin : BeganAt (calls ++ [c]) w s calls.length :=
        beganAt_length ha (not_exists.1 fun h => hw ((mem_of_after calls w s).2 h))
      rw [hnew]
      refine List.pairwise_append.2 ⟨ih.imp ?_, List.pairwise_singleton .., fun v hv u hu => ?_⟩
      · rintro v u ⟨m, n, hm, hn, hlt⟩
        exact ⟨m, n, hm.concat (hstays v), hn.concat (hstays u), hlt⟩
      · obtain rfl := List.mem_singleton.1 hu
        obtain ⟨m, hm⟩ := (mem_of_after calls v s).1 hv
        exact ⟨m, calls.length, hm.concat (hstays v), hbegin, hm.lt_length⟩

theorem nodup_of_after (calls : List Call) (s : EntityId) : ((after calls).of s).Nodup := by
  refine (pairwise_of_after calls s).imp ?_
  rintro v w ⟨m, n, hm, hn, hlt⟩ rfl
  exact hlt.ne (hm.unique hn)

theorem noEmpty_after (calls : List Call) : (after calls).NoEmpty := by
  induction calls using List.reverseRecOn with
  | nil =>
    intro s hs
    simp [after] at hs
  | append_singleton calls c ih =>
    rw [after_concat]
    cases c with
    | observe w g => exact ih.observe w g
    | forget id => exact noEmpty_forget id

theorem mem_table_of_mem {x : Audience} {w s : EntityId} (h : w ∈ x.of s) : s ∈ x.table := by
  by_contra hs
  simp [of, Std.ExtTreeMap.getD_eq_fallback hs] at h

theorem NoEmpty.size_eq {x : Audience} (h : x.NoEmpty) :
    x.size = {s | ∃ w, w ∈ x.of s}.ncard := by
  have hset : {s | ∃ w, w ∈ x.of s} = (x.table.keys.toFinset : Set EntityId) := by
    ext s
    rw [List.coe_toFinset, Set.mem_ofPred_eq, Set.mem_ofPred_eq, Std.ExtTreeMap.mem_keys]
    exact ⟨fun ⟨w, hw⟩ => mem_table_of_mem hw, fun hs => List.exists_mem_of_ne_nil _ (h s hs)⟩
  rw [hset, Set.ncard_coe_finset, List.toFinset_card_of_nodup Std.ExtTreeMap.nodup_keys,
    Std.ExtTreeMap.length_keys]
  rfl

/-- After any calls, `w` is listed under `s`, once, if the last call that has to do with the two
says that `s` is in view. Those listed stand in the order of the calls with which they came to see
`s`, each by the one call with which it did so, and only subjects that somebody sees have an
entry. -/
theorem after_lists_by_seniority (calls : List Call) :
    (∀ w s, ((after calls).of s).count w =
      if (calls.filter (·.concerns w s)).getLast?.any Call.shows then 1 else 0) ∧
    (∀ w s, w ∈ (after calls).of s ↔ ∃! n, BeganAt calls w s n) ∧
    (∀ s, ((after calls).of s).Pairwise fun v w =>
      ∃ m n, BeganAt calls v s m ∧ BeganAt calls w s n ∧ m < n) ∧
    (after calls).size = {s | ∃ w, w ∈ (after calls).of s}.ncard ∧
    ∀ (s : EntityId) (list : List EntityId), (after calls).table[s]? = some list → list ≠ [] := by
  refine ⟨fun w s => ?_, fun w s => ?_, pairwise_of_after calls, (noEmpty_after calls).size_eq,
    fun s list hs => ?_⟩
  · have hmem := (mem_of_after calls w s).trans (exists_beganAt_iff_last calls w s)
    rw [← if_congr hmem rfl rfl, (nodup_of_after calls s).count]
  · rw [mem_of_after]
    exact ⟨fun ⟨n, hn⟩ => ⟨n, hn, fun m hm => hm.unique hn⟩, fun ⟨n, hn, _⟩ => ⟨n, hn⟩⟩
  · have hne := noEmpty_after calls s (IdMap.mem_iff_exists.2 ⟨list, hs⟩)
    have hof : (after calls).of s = list := by
      simp [of, Std.ExtTreeMap.getD_eq_getD_getElem?, hs]
    rwa [hof] at hne

end Audience
end Fieldwatch.Interest

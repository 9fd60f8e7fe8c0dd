import Fieldwatch.Proofs.Interest.Index
import Fieldwatch.Proofs.Interest.Recall

/-! What leaves a feed. A live feed sends what its world announces, word for word, and counts it.
A feed that is not live sends nothing; it does not have to, for without players nothing is
announced. -/

namespace Fieldwatch

open Interest

def Notice.delivery? (n : Notice) : Option Delivery :=
  match n.event with
  | .sighting g => some ⟨n.receiver, g⟩
  | _ => none

def deliveries (l : List Effect) : List Delivery := (notices l).filterMap Notice.delivery?

@[simp] theorem deliveries_append (l m : List Effect) :
    deliveries (l ++ m) = deliveries l ++ deliveries m := by
  rw [deliveries, notices, List.filterMap_append, List.filterMap_append]
  rfl

theorem deliveries_map_send (ds : List Delivery) :
    deliveries (ds.map fun d => send d.watcher (.sighting d.sighting)) = ds := by
  induction ds with
  | nil => rfl
  | cons d ds ih => exact congrArg (d :: ·) ih

def Effect.IsQuiet : Effect → Prop
  | .notify n => n.delivery? = none
  | .raise c _ | .lower c _ => c ≠ .aoiEvents
  | .stepped => True

theorem deliveries_of_quiet {l : List Effect} (h : ∀ e ∈ l, e.IsQuiet) : deliveries l = [] := by
  induction l with
  | nil => rfl
  | cons e l ih =>
    have he := h e List.mem_cons_self
    have hl := ih fun d hd => h d (List.mem_cons_of_mem _ hd)
    cases e with
    | notify n =>
      have hn : n.delivery? = none := he
      change (n :: notices l).filterMap Notice.delivery? = []
      rw [List.filterMap_cons_none hn]
      exact hl
    | raise c n => exact hl
    | lower c n => exact hl
    | stepped => exact hl

namespace Counters

theorem aoiEvents_recordStep (m : Counters) (us : UInt64) :
    (m.recordStep us).aoiEvents = m.aoiEvents := by
  unfold recordStep
  dsimp only
  split <;> rfl

theorem aoiEvents_set_of_ne (m : Counters) {c : Counter} (hc : c ≠ .aoiEvents) (v : UInt64) :
    (m.set c v).aoiEvents = m.aoiEvents := by
  have h := get_set m c .aoiEvents v
  rwa [if_neg hc] at h

theorem aoiEvents_apply_of_quiet {e : Effect} (he : e.IsQuiet) (us : UInt64) (m : Counters) :
    (m.apply us e).aoiEvents = m.aoiEvents := by
  cases e with
  | notify n => rfl
  | raise c n => exact aoiEvents_set_of_ne m he _
  | lower c n => exact aoiEvents_set_of_ne m he _
  | stepped => exact aoiEvents_recordStep m us

end Counters

def Tallies (l : List Effect) : Prop :=
  ∀ (us : UInt64) (m : Counters),
    (l.foldl (Counters.apply us) m).aoiEvents = m.aoiEvents + (deliveries l).length.toUInt64

theorem tallies_of_quiet {l : List Effect} (h : ∀ e ∈ l, e.IsQuiet) : Tallies l := by
  intro us m
  rw [deliveries_of_quiet h]
  suffices hm : (l.foldl (Counters.apply us) m).aoiEvents = m.aoiEvents by simpa using hm
  induction l generalizing m with
  | nil => rfl
  | cons e l ih =>
    rw [List.foldl_cons, ih fun d hd => h d (List.mem_cons_of_mem _ hd)]
    exact Counters.aoiEvents_apply_of_quiet (h e List.mem_cons_self) us m

theorem Tallies.append {l k : List Effect} (hl : Tallies l) (hk : Tallies k) :
    Tallies (l ++ k) := by
  intro us m
  have hadd : (deliveries (l ++ k)).length.toUInt64 =
      (deliveries l).length.toUInt64 + (deliveries k).length.toUInt64 := by
    rw [deliveries_append, List.length_append]
    exact UInt64.ofNat_add _ _
  rw [List.foldl_append, hk, hl, hadd, UInt64.add_assoc]

namespace Interest

namespace World

variable {w y : World} {id p s : EntityId}

theorem told_apply (h : w.Consistent) (hps : p ≠ s) (c : Change) :
    told (w.apply c).log p s = w.news (w.apply c).value p s c := by
  cases c with
  | add id isPlayer pos => exact told_add h hps isPlayer pos
  | remove id => exact told_remove h hps
  | move id pos => exact told_move h hps pos
  | refresh id => exact h.told_refresh hps
  | setRadiusOf id radius => exact told_setRadiusOf h.linked hps radius
  | setRadius radius => exact told_setRadius h.linked hps radius

theorem told_apply_self (h : w.Linked) (hp : p ∉ w.players) (c : Change) :
    told (w.apply c).log p p = [] := by
  cases c with
  | add id isPlayer pos => exact told_add_same h isPlayer pos
  | remove id => exact told_remove_same
  | move id pos => exact (told_move_same h pos).trans (if_neg fun hn => hp hn.2)
  | refresh id => exact told_refresh_same h
  | setRadiusOf id radius => exact told_setRadiusOf_same h radius
  | setRadius radius => exact told_setRadius_same h radius

theorem news_eq_nil (hw : p ∉ w.players) (hy : p ∉ y.players) (c : Change) :
    w.news y p s c = [] := by
  have hw := sees_eq_false_of_not_player (s := s) hw
  have hy := sees_eq_false_of_not_player (s := s) hy
  cases c <;> simp [news, moveNews, viewNews, hw, hy]

theorem log_apply_eq_nil (h : w.Consistent) {c : Change} (hw : ∀ p, p ∉ w.players)
    (hy : ∀ p, p ∉ (w.apply c).value.players) : (w.apply c).log = [] := by
  have ht : ∀ p s, told (w.apply c).log p s = [] := by
    intro p s
    by_cases hps : p = s
    · subst hps
      exact told_apply_self h.linked (hw p) c
    · rw [told_apply h hps, news_eq_nil (hw p) (hy p)]
  cases hl : (w.apply c).log with
  | nil => rfl
  | cons d l =>
    have hd := ht d.watcher d.sighting.subject
    rw [hl, told_cons, if_pos ⟨rfl, rfl⟩] at hd
    cases hd

end World

namespace Feed

variable {f : Feed} {id : EntityId}

theorem log_deliver (ds : List Delivery) : (f.deliver ds).log =
    (if ds.isEmpty then [] else [.raise .aoiEvents ds.length.toUInt64]) ++
      if f.live then ds.map fun d => send d.watcher (.sighting d.sighting) else [] := rfl

theorem deliveries_deliver (ds : List Delivery) :
    deliveries (f.deliver ds).log = if f.live then ds else [] := by
  have hc :
      deliveries (if ds.isEmpty then [] else [.raise .aoiEvents ds.length.toUInt64]) = [] := by
    split <;> rfl
  rw [log_deliver, deliveries_append, hc, List.nil_append]
  split
  · exact deliveries_map_send ds
  · rfl

theorem foldl_apply_sends (us : UInt64) (m : Counters) (ds : List Delivery) :
    (ds.map fun d => send d.watcher (.sighting d.sighting)).foldl (Counters.apply us) m = m := by
  induction ds with
  | nil => rfl
  | cons d ds ih => exact ih

theorem tallies_deliver {ds : List Delivery} (h : f.live ∨ ds = []) :
    Tallies (f.deliver ds).log := by
  intro us m
  rw [deliveries_deliver, log_deliver, List.foldl_append]
  cases ds with
  | nil => simp
  | cons d ds =>
    have hl : f.live = true := by simpa using h
    rw [if_pos hl, if_pos hl, foldl_apply_sends]
    rfl

theorem deliveries_change (op : World → Emit Delivery World) :
    deliveries (f.change op).log = if f.live then (op f.world).log else [] := deliveries_deliver _

theorem live_add (f : Feed) (id : EntityId) (isPlayer : Bool) (pos : Vec2) :
    (f.add id isPlayer pos).value.live = f.live := by
  unfold Feed.add
  split <;> rfl

theorem Consistent.tellSelf (hf : f.Consistent) (hp : id ∈ f.world.players) :
    (f.tellSelf id ⟨.snapshot, id, f.world.posOf id⟩).value.Consistent := by
  have htold : ∀ q s, q ≠ id ∨ s ≠ id →
      told [⟨id, .snapshot, id, f.world.posOf id⟩] q s = [] := by
    intro q s hqs
    rw [told_cons, if_neg fun h => hqs.elim (· h.1.symm) (· h.2.symm)]
    rfl
  have hchange : (f.change fun w => ⟨w, [⟨id, .snapshot, id, w.posOf id⟩]⟩).value.Consistent := by
    refine Consistent.change hf hf.world (fun {q s} hqs => ?_) (fun hq => hq) fun {q} hq => ?_
    · have hne : q ≠ id ∨ s ≠ id := by
        by_cases hq : q = id
        · exact .inr fun hs => hqs (hq.trans hs.symm)
        · exact .inl hq
      have hconveys : World.Conveys f.world f.world q s [] := World.conveys_nil rfl
      rwa [← htold q s hne] at hconveys
    · exact htold q q (.inl fun he => hq (he ▸ hp))
  exact hchange

theorem log_remove : (f.remove id).log = (f.change (·.remove id)).log := List.append_nil _

end Feed
end Interest
end Fieldwatch

import Fieldwatch.Proofs.Worker.Stages
import Mathlib.Logic.Function.Basic

/-! A worker from the day it is created. Whoever has it may push to it, start it and stop it, as
often as they like and at any time, its own loop included, from within the message in hand. A call
of `stop` that finds the worker running goes on in steps of its own, between which anything may
happen: the last mail is posted, the loop leaves, the worker is stopped, and only then is it taken
off the count of active ones. A call from within neither waits for room in the mailbox nor for the
loop.

The stage of the worker and the calls that are under way determine each other, so that one call only
ever takes those steps. -/

namespace Fieldwatch

variable {κ β : Type}

theorem update_eq_some {α : Type} [DecidableEq κ] {f : κ → Option α} {k j : κ} {c : Option α}
    {e : α} (h : Function.update f k c j = some e) : j = k ∧ c = some e ∨ j ≠ k ∧ f j = some e := by
  by_cases hjk : j = k
  · subst hjk
    rw [Function.update_self] at h
    exact .inl ⟨rfl, h⟩
  · rw [Function.update_of_ne hjk] at h
    exact .inr ⟨hjk, h⟩

inductive Call where
  | start
  | stop
  | post
  | join
  | retire
  | settle (owed : List Effect)

def Call.stage? : Call → Option Stage
  | .start | .stop => none
  | .post | .join | .retire => some .stopping
  | .settle _ => some .stopped

def Call.Suits : Call → LastMail → Prop
  | .start, _ | .stop, _ => True
  | .post, l => l = .due
  | .join, l => l = .posted
  | .retire, l | .settle _, l => l ≠ .due

theorem Call.suits_of_stage? {c : Call} (h : c.stage? = none) (l : LastMail) : c.Suits l := by
  cases c with
  | start | stop => trivial
  | post | join | retire | settle => cases h

structure Tenure (κ β : Type) where
  id : FieldId
  worker : Worker β
  calls : κ → Option Call := fun _ => none
  spawned : Nat := 0
  asked : Bool := false
  settled : Nat := 0
  last : LastMail := .due
  accepted : List (Message β) := []
  handled : List (Message β) := []

namespace Tenure

def init (field : Field β) (capacity : Nat) : Tenure κ β :=
  { id := field.id, worker := Worker.create field capacity }

def MayAct (inside : κ → Prop) (s : Tenure κ β) (k : κ) : Prop :=
  inside k → ∃ m, s.worker.loop = .handling m

def push (s : Tenure κ β) (m : Message β) : Tenure κ β :=
  { s with
    worker := (s.worker.push m).value.2
    accepted := s.accepted ++ s.worker.taken m }

def start (s : Tenure κ β) : Tenure κ β :=
  { s with
    worker := s.worker.start.value
    spawned := s.spawned + if s.worker.start.value.stage = s.worker.stage then 0 else 1 }

def halts (s : Tenure κ β) (k : κ) : Option Stage := (s.calls k).bind Call.stage?

variable [DecidableEq κ]

def turn (s : Tenure κ β) (k : κ) (c : Option Call) : Tenure κ β :=
  { s with calls := Function.update s.calls k c }

/-- What may happen next, with its effects. Only messages with the property `P` are pushed; `inside`
are those callers who are the loop of the worker. -/
inductive Step (P : Message β → Prop) (inside : κ → Prop) :
    Tenure κ β → List Effect → Tenure κ β → Prop
  | push (s : Tenure κ β) {m : Message β} (hm : P m) :
      Step P inside s (s.worker.push m).log (s.push m)
  | callStart (s : Tenure κ β) {k : κ} (hk : s.calls k = none) (ha : s.MayAct inside k) :
      Step P inside s [] (s.turn k (some .start))
  | callStop (s : Tenure κ β) {k : κ} (hk : s.calls k = none) (ha : s.MayAct inside k) :
      Step P inside s [] { s.turn k (some .stop) with asked := true }
  | start (s : Tenure κ β) {k : κ} (hk : s.calls k = some .start) (ha : s.MayAct inside k) :
      Step P inside s s.worker.start.log (s.start.turn k none)
  | close (s : Tenure κ β) {k : κ} (hk : s.calls k = some .stop) (ha : s.MayAct inside k) :
      Step P inside s []
        { s.turn k (if s.worker.stage = .running then some .post else none) with
          worker := s.worker.close }
  | post (s : Tenure κ β) {k : κ} (hk : s.calls k = some .post) (ho : ¬ inside k)
      (hr : s.worker.isFull = false) : Step P inside s []
        { s.turn k (some .join) with worker := s.worker.postShutdown, last := .posted }
  | postWithin (s : Tenure κ β) {k : κ} (hk : s.calls k = some .post) (hi : inside k)
      (ha : s.MayAct inside k) : Step P inside s []
        { s.turn k (some .retire) with
          worker := s.worker.postShutdown
          last := if s.worker.isFull then .lost else .posted }
  | join (s : Tenure κ β) {k : κ} (hk : s.calls k = some .join) (hl : s.worker.loop = .exited) :
      Step P inside s [] (s.turn k (some .retire))
  | retire (s : Tenure κ β) {k : κ} (hk : s.calls k = some .retire) (ha : s.MayAct inside k) :
      Step P inside s []
        { s.turn k (some (.settle s.worker.retire.log)) with worker := s.worker.retire.value }
  | settle (s : Tenure κ β) {k : κ} {owed : List Effect} (hk : s.calls k = some (.settle owed))
      (ha : s.MayAct inside k) :
      Step P inside s owed { s.turn k none with settled := s.settled + 1 }
  | receive (s : Tenure κ β) (hl : s.worker.loop = .waiting) (hm : s.worker.mailbox ≠ []) :
      Step P inside s [] { s with worker := s.worker.receive }
  | finish (s : Tenure κ β) {m : Message β} (hl : s.worker.loop = .handling m)
      (hq : ∀ k, inside k → s.calls k = none) : Step P inside s s.worker.finish.log
        { s with worker := s.worker.finish.value, handled := s.handled ++ [m] }

def Reaches (P : Message β → Prop) (inside : κ → Prop) : Tenure κ β → Tenure κ β → Prop :=
  Relation.ReflTransGen fun s t => ∃ l, Step P inside s l t

end Tenure
section Orderly

open Function

/-- Which stages the calls have brought about, in view of the stage of the worker. -/
inductive Orderly [DecidableEq κ] : Stage → (κ → Option Stage) → Prop
  | idle {g : Stage} (hg : g ≠ .stopping) : Orderly g fun _ => none
  | stopping (k : κ) : Orderly .stopping (update (fun _ => none) k (some .stopping))
  | stopped (k : κ) : Orderly .stopped (update (fun _ => none) k (some .stopped))

namespace Orderly

variable [DecidableEq κ] {g h : Stage} {p : κ → Option Stage} {k : κ}

theorem eq_none (ho : Orderly g p) (hg : g = .created ∨ g = .running) : p = fun _ => none := by
  cases ho with
  | idle => rfl
  | stopping | stopped => rcases hg with hg | hg <;> cases hg

theorem eq_of_some (ho : Orderly g p) (hk : p k = some h) :
    g = h ∧ p = update (fun _ => none) k (some h) := by
  cases ho with
  | idle => cases hk
  | stopping j | stopped j =>
    by_cases hj : k = j
    · subst hj
      rw [update_self] at hk
      cases hk
      exact ⟨rfl, rfl⟩
    · rw [update_of_ne hj] at hk
      cases hk

theorem same (ho : Orderly g p) {c : Option Stage} (hc : c = p k) : Orderly g (update p k c) := by
  rw [hc, update_eq_self]
  exact ho

theorem pass (ho : Orderly g p) (hg : g = .created ∨ g = .running) (hh : h ≠ .stopping) :
    Orderly h (update p k none) := by
  have hnone : update p k none = fun _ => none := by
    rw [ho.eq_none hg]
    exact update_eq_self k _
  rw [hnone]
  exact .idle hh

theorem close (ho : Orderly .running p) : Orderly .stopping (update p k (some .stopping)) := by
  rw [ho.eq_none (.inr rfl)]
  exact .stopping k

theorem retire (ho : Orderly g p) (hk : p k = some .stopping) :
    Orderly .stopped (update p k (some .stopped)) := by
  rw [(ho.eq_of_some hk).2, update_idem]
  exact .stopped k

theorem settle (ho : Orderly g p) (hk : p k = some .stopped) : Orderly g (update p k none) := by
  obtain ⟨rfl, hp⟩ := ho.eq_of_some hk
  have hnone : update p k none = fun _ => none := by
    rw [hp, update_idem]
    exact update_eq_self k _
  rw [hnone]
  exact .idle nofun

theorem exists_of_stopping (ho : Orderly .stopping p) : ∃ j, p j = some .stopping := by
  cases ho with
  | idle hg => exact (hg rfl).elim
  | stopping j => exact ⟨j, update_self ..⟩

end Orderly

end Orderly
namespace Tenure

section Rules

variable [DecidableEq κ]

structure Ruled (g : Stage) (calls : κ → Option Call) (asked : Bool) : Prop where
  orderly : Orderly g ((·.bind Call.stage?) ∘ calls)
  owed_eq : ∀ {k l}, calls k = some (.settle l) → l = [.lower .fieldsActive 1]
  unasked : asked = false → (g = .created ∨ g = .running) ∧ ∀ k c, calls k = some c → c = .start
  answered : asked = true → g = .stopped ∨ ∃ k c, calls k = some c ∧ c ≠ .start

variable {g g' : Stage} {calls : κ → Option Call} {asked asked' : Bool} {k : κ} {c' : Option Call}

theorem Ruled.turn (h : Ruled g calls asked)
    (ho : Orderly g' (Function.update ((·.bind Call.stage?) ∘ calls) k (c'.bind Call.stage?)))
    (hl : ∀ l, c' = some (.settle l) → l = [.lower .fieldsActive 1])
    (hu : asked' = false → asked = false ∧ (g' = .created ∨ g' = .running) ∧
      ∀ c, c' = some c → c = .start)
    (ha : asked' = true →
      (g' = .stopped ∨ ∃ j c, Function.update calls k c' j = some c ∧ c ≠ .start) ∨
      asked = true ∧ (g = .stopped → g' = .stopped) ∧ ∀ c, calls k = some c → c = .start) :
    Ruled g' (Function.update calls k c') asked' where
  orderly := by
    rw [Function.comp_update]
    exact ho
  owed_eq {j l} hj := by
    rcases update_eq_some hj with ⟨rfl, hc⟩ | ⟨-, hj⟩
    · exact hl l hc
    · exact h.owed_eq hj
  unasked hf := by
    obtain ⟨hold, hg, hc⟩ := hu hf
    refine ⟨hg, fun j c hj => ?_⟩
    rcases update_eq_some hj with ⟨rfl, hnew⟩ | ⟨-, hj⟩
    · exact hc c hnew
    · exact (h.unasked hold).2 j c hj
  answered ht := by
    rcases ha ht with hnew | ⟨hold, hg, hk⟩
    · exact hnew
    · rcases h.answered hold with hs | ⟨j, c, hj, hne⟩
      · exact .inl (hg hs)
      · have hjk : j ≠ k := fun he => hne (hk c (he ▸ hj))
        exact .inr ⟨j, c, (Function.update_of_ne hjk ..).trans hj, hne⟩

theorem Ruled.done (h : Ruled g calls asked)
    (ho : Orderly g' (Function.update ((·.bind Call.stage?) ∘ calls) k none))
    (hu : asked = false → g' = .created ∨ g' = .running)
    (ha : asked = true →
      g' = .stopped ∨ (g = .stopped → g' = .stopped) ∧ ∀ c, calls k = some c → c = .start) :
    Ruled g' (Function.update calls k none) asked := by
  refine h.turn ho ?_ (fun hf => ⟨hf, hu hf, ?_⟩) fun ht => ?_
  · intro l hl
    cases hl
  · intro c hc
    cases hc
  · rcases ha ht with hs | ⟨hg, hk⟩
    · exact .inl (.inl hs)
    · exact .inr ⟨ht, hg, hk⟩

structure Mailed (w : Worker β) (calls : κ → Option Call) (last : LastMail) : Prop where
  shows : last.Shows w
  due : w.stage = .created ∨ w.stage = .running → last = .due
  suits : ∀ {k c}, calls k = some c → c.Suits last
  settled : w.stage = .stopped → w.loop ≠ .unstarted → last ≠ .due

variable {w v : Worker β} {last : LastMail}

theorem Mailed.turn (h : Mailed w calls last) (hc : ∀ c, c' = some c → c.Suits last) :
    Mailed w (Function.update calls k c') last where
  shows := h.shows
  due := h.due
  suits {j c} hj := by
    rcases update_eq_some hj with ⟨rfl, hnew⟩ | ⟨-, hj⟩
    · exact hc c hnew
    · exact h.suits hj
  settled := h.settled

theorem Mailed.done (h : Mailed w calls last) : Mailed w (Function.update calls k none) last := by
  refine h.turn fun c hc => ?_
  cases hc

omit [DecidableEq κ] in
theorem Mailed.work (h : Mailed w calls last) (hv : last.Shows v) (hs : v.stage = w.stage)
    (hl : v.loop = .unstarted ↔ w.loop = .unstarted) : Mailed v calls last where
  shows := hv
  due hg := h.due (hs ▸ hg)
  suits := h.suits
  settled hg hv := h.settled (hs.symm.trans hg) fun hu => hv (hl.2 hu)

end Rules

structure Sound [DecidableEq κ] (P : Message β → Prop) (s : Tenure κ β) : Prop where
  coherent : s.worker.Coherent
  begun : (s.worker.loop = .unstarted ∧ s.spawned = 0) ∨
    s.worker.loop ≠ .unstarted ∧ s.spawned = 1
  ruled : Ruled s.worker.stage s.calls s.asked
  mailed : Mailed s.worker s.calls s.last
  order : s.accepted = s.handled ++ s.worker.unhandled
  tame : ∀ m ∈ s.accepted, P m

variable {s t : Tenure κ β}

theorem start_of_ne (hs : s.worker.stage ≠ .created) : s.start = s := by
  rw [Tenure.start, Worker.start_of_ne hs, Emit.value_pure, if_pos rfl]
  rfl

theorem start_of_created (hs : s.worker.stage = .created) : s.start =
    { s with
      worker := { s.worker with stage := .running, loop := .waiting }
      spawned := s.spawned + 1 } := by
  rw [Tenure.start, Worker.start_of_created hs, hs]
  rfl

variable [DecidableEq κ] {P : Message β → Prop} {inside : κ → Prop} {k : κ}

theorem sound_init (P : Message β → Prop) (field : Field β) (capacity : Nat) :
    (init field capacity : Tenure κ β).Sound P where
  coherent := Worker.coherent_create field capacity
  begun := .inl ⟨rfl, rfl⟩
  ruled := ⟨.idle nofun, nofun, fun _ => ⟨.inl rfl, nofun⟩, nofun⟩
  mailed := ⟨⟨nofun, [], rfl⟩, fun _ => rfl, nofun, nofun⟩
  order := rfl
  tame := nofun

theorem sound_start_init (P : Message β → Prop) (field : Field β) (capacity : Nat) :
    ((init field capacity).start : Tenure κ β).Sound P := by
  have hcreated : (init field capacity : Tenure κ β).worker.stage = .created := rfl
  have hcoherent := (Worker.coherent_create field capacity).start
  rw [start_of_created hcreated]
  exact ⟨hcoherent, .inr ⟨nofun, rfl⟩, ⟨.idle nofun, nofun, fun _ => ⟨.inr rfl, nofun⟩, nofun⟩,
    ⟨⟨nofun, [], rfl⟩, fun _ => rfl, nofun, nofun⟩, rfl, nofun⟩

theorem Sound.push (h : s.Sound P) {m : Message β} (hm : P m) : (s.push m).Sound P := by
  have hstage := s.worker.stage_push m
  have hloop : (s.worker.push m).value.2.loop = .unstarted ↔ s.worker.loop = .unstarted := by
    rw [Worker.loop_push]
  have hclosed : s.last = .posted → s.worker.closed = true := by
    intro hl
    rw [h.coherent.closed_iff]
    rcases hs : s.worker.stage with _ | _ | _ | _
    · cases (h.mailed.due (.inl hs)).symm.trans hl
    · cases (h.mailed.due (.inr hs)).symm.trans hl
    · exact .inl rfl
    · exact .inr rfl
  refine ⟨h.coherent.congr hstage (s.worker.closed_push m) hloop, ?_, ?_,
    h.mailed.work (h.mailed.shows.push hclosed m) hstage hloop, ?_, ?_⟩
  · change ((s.worker.push m).value.2.loop = _ ∧ _) ∨ (s.worker.push m).value.2.loop ≠ _ ∧ _
    rw [Worker.loop_push]
    exact h.begun
  · change Ruled (s.worker.push m).value.2.stage _ _
    rw [hstage]
    exact h.ruled
  · change s.accepted ++ _ = s.handled ++ (s.worker.push m).value.2.unhandled
    rw [Worker.unhandled_push, ← List.append_assoc, ← h.order]
  · refine List.forall_mem_append.2 ⟨h.tame, ?_⟩
    unfold Worker.taken
    split
    · exact List.forall_mem_singleton.2 hm
    · exact List.forall_mem_nil _

theorem Sound.turn (h : s.Sound P) {c : Option Call} {asked : Bool} {settled : Nat}
    (hr : Ruled s.worker.stage (Function.update s.calls k c) asked)
    (hc : ∀ d, c = some d → d.Suits s.last) :
    Sound P { s.turn k c with asked := asked, settled := settled } :=
  ⟨h.coherent, h.begun, hr, h.mailed.turn hc, h.order, h.tame⟩

theorem Sound.callStart (h : s.Sound P) (hk : s.calls k = none) :
    (s.turn k (some .start)).Sound P := by
  have hsame : Option.bind (some Call.start) Call.stage? = (s.calls k).bind Call.stage? := by
    rw [hk]
    rfl
  refine h.turn (h.ruled.turn (h.ruled.orderly.same hsame) nofun ?_ ?_) ?_
  · exact fun hf => ⟨hf, (h.ruled.unasked hf).1, fun c hc => (Option.some.inj hc).symm⟩
  · exact fun ht => .inr ⟨ht, fun h => h, fun c hc => by cases hk.symm.trans hc⟩
  · rintro d ⟨⟩
    trivial

theorem Sound.callStop (h : s.Sound P) (hk : s.calls k = none) :
    Sound P { s.turn k (some .stop) with asked := true } := by
  have hsame : Option.bind (some Call.stop) Call.stage? = (s.calls k).bind Call.stage? := by
    rw [hk]
    rfl
  refine h.turn (h.ruled.turn (h.ruled.orderly.same hsame) nofun nofun ?_) ?_
  · exact fun _ => .inl (.inr ⟨k, .stop, Function.update_self .., nofun⟩)
  · rintro d ⟨⟩
    trivial

theorem Sound.start (h : s.Sound P) (hk : s.calls k = some .start) :
    (s.start.turn k none).Sound P := by
  have hdone : ∀ c, s.calls k = some c → c = .start := fun c hc =>
    (Option.some.inj (hk.symm.trans hc)).symm
  by_cases hs : s.worker.stage = .created
  · have hl := h.coherent.unstarted hs
    have hspawned : s.spawned = 0 := by simpa [hl] using h.begun
    have hinHand : s.worker.inHand = [] := by rw [Worker.inHand, hl]
    have hdue := h.mailed.due (.inl hs)
    have hcoherent := h.coherent.start
    rw [Worker.start_of_created hs] at hcoherent
    rw [start_of_created hs]
    refine ⟨hcoherent, .inr ⟨Loop.waiting_ne_unstarted, congrArg (· + 1) hspawned⟩, ?_, ?_, ?_,
      h.tame⟩
    · have hnot : Stage.running ≠ .stopping := by decide
      refine h.ruled.done (h.ruled.orderly.pass (.inl hs) hnot) (fun _ => .inr rfl) fun _ => .inr ?_
      exact ⟨fun hg => (by cases hs.symm.trans hg), hdone⟩
    · have hshows := h.mailed.shows
      rw [hdue] at hshows
      refine Mailed.done ⟨?_, fun _ => hdue, h.mailed.suits, fun hg => ?_⟩
      · rw [hdue]
        exact Worker.Goes.congr hshows Loop.waiting_ne_exited rfl
      · cases hg
    · have horder := h.order
      rw [Worker.unhandled, hinHand] at horder
      exact horder
  · rw [start_of_ne hs]
    have hsame : none = ((·.bind Call.stage?) ∘ s.calls) k := by
      rw [Function.comp_apply, hk]
      rfl
    have hruled := h.ruled.done (h.ruled.orderly.same hsame) (fun hf => (h.ruled.unasked hf).1)
      fun _ => .inr ⟨fun hg => hg, hdone⟩
    exact ⟨h.coherent, h.begun, hruled, h.mailed.done, h.order, h.tame⟩

theorem Ruled.goOn {g : Stage} {calls : κ → Option Call} {asked : Bool} (h : Ruled g calls asked)
    {c d : Call} (hk : calls k = some c) (hc : c.stage? = some .stopping)
    (hd : d.stage? = some .stopping) : Ruled g (Function.update calls k (some d)) asked := by
  have hp : ((·.bind Call.stage?) ∘ calls) k = some .stopping := by
    rw [Function.comp_apply, hk]
    exact hc
  have hg := (h.orderly.eq_of_some hp).1
  refine h.turn (h.orderly.same (hd.trans hp.symm)) ?_ ?_ ?_
  · rintro l ⟨⟩
    cases hd
  · intro hf
    rcases (h.unasked hf).1 with ho | ho <;> cases hg.symm.trans ho
  · refine fun _ => .inl (.inr ⟨k, d, Function.update_self .., ?_⟩)
    rintro rfl
    cases hd

theorem Sound.close (h : s.Sound P) (hk : s.calls k = some .stop) : Sound P
    { s.turn k (if s.worker.stage = .running then some .post else none) with
      worker := s.worker.close } := by
  have hask : s.asked = false → False := fun hf => by cases (h.ruled.unasked hf).2 k _ hk
  have hpast : ((·.bind Call.stage?) ∘ s.calls) k = none := by
    rw [Function.comp_apply, hk]
    rfl
  have hcoherent := h.coherent.close
  rcases hs : s.worker.stage with _ | _ | _ | _
  case created =>
    have hl := h.coherent.unstarted hs
    rw [Worker.close_of_created hs] at hcoherent ⊢
    refine ⟨hcoherent, h.begun, ?_, ?_, h.order, h.tame⟩
    · have hnot : Stage.stopped ≠ .stopping := by decide
      exact h.ruled.done (h.ruled.orderly.pass (.inl hs) hnot) (fun hf => (hask hf).elim)
        fun _ => .inl rfl
    · refine Mailed.done ⟨h.mailed.shows.congr rfl rfl, ?_, h.mailed.suits, ?_⟩
      · exact fun hg => by rcases hg with hg | hg <;> cases hg
      · exact fun _ hv => (hv hl).elim
  case running =>
    have hdue := h.mailed.due (.inr hs)
    have horderly := h.ruled.orderly
    rw [hs] at horderly
    rw [Worker.close_of_running hs] at hcoherent ⊢
    refine ⟨hcoherent, h.begun, ?_, ?_, h.order, h.tame⟩
    · exact h.ruled.turn horderly.close nofun (fun hf => (hask hf).elim)
        fun _ => .inl (.inr ⟨k, .post, Function.update_self .., nofun⟩)
    · refine Mailed.turn ⟨h.mailed.shows.congr rfl rfl, fun _ => hdue, h.mailed.suits,
        nofun⟩ ?_
      rintro c ⟨⟩
      exact hdue
  case stopping =>
    have horderly := h.ruled.orderly
    rw [hs] at horderly
    -- another call has brought it about, which is still under way
    obtain ⟨j, hj⟩ := horderly.exists_of_stopping
    have hjk : j ≠ k := by
      rintro rfl
      cases hpast.symm.trans hj
    rw [Worker.close_of_late (.inl hs)]
    refine h.turn (h.ruled.turn (h.ruled.orderly.same hpast.symm) nofun (fun hf => (hask hf).elim)
      fun _ => .inl (.inr ?_)) nofun
    obtain ⟨c, hc, hcs⟩ := Option.bind_eq_some_iff.1 hj
    refine ⟨j, c, (Function.update_of_ne hjk ..).trans hc, ?_⟩
    rintro rfl
    cases hcs
  case stopped =>
    have hruled := h.ruled.done (h.ruled.orderly.same hpast.symm) (fun hf => (hask hf).elim)
      fun _ => .inl hs
    rw [Worker.close_of_late (.inr hs)]
    exact ⟨h.coherent, h.begun, hruled, h.mailed.done, h.order, h.tame⟩

theorem Ruled.stage_eq {g h : Stage} {calls : κ → Option Call} {asked : Bool}
    (hr : Ruled g calls asked) {c : Call} (hk : calls k = some c) (hc : c.stage? = some h) :
    g = h ∧ ∀ j ≠ k, ∀ d, calls j = some d → d.stage? = none := by
  have hp : ((·.bind Call.stage?) ∘ calls) k = some h := by
    rw [Function.comp_apply, hk]
    exact hc
  obtain ⟨hg, hall⟩ := hr.orderly.eq_of_some hp
  refine ⟨hg, fun j hj d hd => ?_⟩
  have hnone := congrFun hall j
  rw [Function.comp_apply, hd, Function.update_of_ne hj] at hnone
  exact hnone

/-- The last mail is posted, or is lost. Only the call that has closed the mailbox cares. -/
theorem Sound.posted (h : s.Sound P) (hk : s.calls k = some .post) (l : LastMail) (d : Call)
    (hl : l ≠ .due) (hd : d.stage? = some .stopping) (hsuits : d.Suits l) {w : Worker β}
    (hw : w = s.worker ∨ w = { s.worker with mailbox := s.worker.mailbox ++ [.shutdown] })
    (hshows : l.Shows w) : Sound P { s.turn k (some d) with worker := w, last := l } := by
  obtain ⟨hg, hothers⟩ := h.ruled.stage_eq hk rfl
  have hstage : w.stage = s.worker.stage := by rcases hw with rfl | rfl <;> rfl
  have hclosed : w.closed = s.worker.closed := by rcases hw with rfl | rfl <;> rfl
  have hloop : w.loop = s.worker.loop := by rcases hw with rfl | rfl <;> rfl
  have hunhandled : w.unhandled = s.worker.unhandled := by
    rcases hw with rfl | rfl
    · rfl
    · exact (Ledger.unhandled_append s.worker .shutdown).trans (List.append_nil _)
  refine ⟨h.coherent.congr hstage hclosed (by rw [hloop]), ?_, ?_, ⟨hshows, ?_, ?_, ?_⟩, ?_,
    h.tame⟩
  · change (w.loop = _ ∧ _) ∨ w.loop ≠ _ ∧ _
    rw [hloop]
    exact h.begun
  · change Ruled w.stage _ _
    rw [hstage]
    exact h.ruled.goOn hk rfl hd
  · change w.stage = _ ∨ w.stage = _ → _
    rw [hstage, hg]
    exact fun hg => by rcases hg with hg | hg <;> cases hg
  · intro j c hj
    rcases update_eq_some hj with ⟨rfl, ⟨⟩⟩ | ⟨hjk, hj⟩
    · exact hsuits
    · exact Call.suits_of_stage? (hothers j hjk c hj) l
  · exact fun _ _ => hl
  · change s.accepted = s.handled ++ w.unhandled
    rw [hunhandled]
    exact h.order

theorem Sound.post (h : s.Sound P) (hk : s.calls k = some .post) (hr : s.worker.isFull = false) :
    Sound P { s.turn k (some .join) with worker := s.worker.postShutdown, last := .posted } := by
  have hg := (h.ruled.stage_eq hk rfl).1
  have hdue : s.last = .due := h.mailed.suits hk
  have hgoes := h.mailed.shows
  rw [hdue] at hgoes
  exact h.posted hk .posted .join nofun rfl rfl (.inr (Worker.postShutdown_of_room hg hr))
    (Worker.Goes.ends_postShutdown hgoes hg hr)

theorem Sound.postWithin (h : s.Sound P) (hk : s.calls k = some .post) : Sound P
    { s.turn k (some .retire) with
      worker := s.worker.postShutdown
      last := if s.worker.isFull then .lost else .posted } := by
  have hg := (h.ruled.stage_eq hk rfl).1
  have hdue : s.last = .due := h.mailed.suits hk
  have hgoes := h.mailed.shows
  rw [hdue] at hgoes
  rcases hr : s.worker.isFull with _ | _
  · exact h.posted hk .posted .retire nofun rfl nofun (.inr (Worker.postShutdown_of_room hg hr))
      (Worker.Goes.ends_postShutdown hgoes hg hr)
  · refine h.posted hk .lost .retire nofun rfl nofun (.inl (Worker.postShutdown_of_full hr)) ?_
    rw [Worker.postShutdown_of_full hr]
    exact hgoes

theorem Sound.join (h : s.Sound P) (hk : s.calls k = some .join) :
    (s.turn k (some .retire)).Sound P := by
  refine h.turn (h.ruled.goOn hk rfl rfl) ?_
  rintro c ⟨⟩
  have hposted : s.last = .posted := h.mailed.suits hk
  change s.last ≠ .due
  rw [hposted]
  exact nofun

theorem Sound.retire (h : s.Sound P) (hk : s.calls k = some .retire) : Sound P
    { s.turn k (some (.settle s.worker.retire.log)) with worker := s.worker.retire.value } := by
  have hg := (h.ruled.stage_eq hk rfl).1
  have hlate : s.last ≠ .due := h.mailed.suits hk
  have hp : ((·.bind Call.stage?) ∘ s.calls) k = some .stopping := by
    rw [Function.comp_apply, hk]
    rfl
  have hcoherent := h.coherent.retire hg
  rw [Worker.retire_of_stopping hg] at hcoherent ⊢
  refine ⟨hcoherent, h.begun, ?_, ?_, h.order, h.tame⟩
  · refine h.ruled.turn (h.ruled.orderly.retire hp) ?_ ?_ fun _ => .inl (.inl rfl)
    · rintro l ⟨⟩
      rfl
    · intro hf
      rcases (h.ruled.unasked hf).1 with ho | ho <;> cases hg.symm.trans ho
  · refine Mailed.turn ⟨h.mailed.shows.congr rfl rfl, ?_, h.mailed.suits,
      fun _ _ => hlate⟩ ?_
    · exact fun hg => by rcases hg with hg | hg <;> cases hg
    · rintro c ⟨⟩
      exact hlate

theorem Sound.settle (h : s.Sound P) {owed : List Effect} (hk : s.calls k = some (.settle owed)) :
    Sound P { s.turn k none with settled := s.settled + 1 } := by
  have hg := (h.ruled.stage_eq hk rfl).1
  have hp : ((·.bind Call.stage?) ∘ s.calls) k = some .stopped := by
    rw [Function.comp_apply, hk]
    rfl
  have hruled := h.ruled.done (h.ruled.orderly.settle hp) (fun hf => (h.ruled.unasked hf).1)
    fun _ => .inl hg
  exact ⟨h.coherent, h.begun, hruled, h.mailed.done, h.order, h.tame⟩

theorem Sound.receive (h : s.Sound P) (hl : s.worker.loop = .waiting) :
    Sound P { s with worker := s.worker.receive } := by
  have hstage := s.worker.stage_receive
  have hnot : s.worker.loop ≠ .unstarted := fun hu => by cases hl.symm.trans hu
  have hnot' := Worker.loop_receive_ne hl
  have hspawned : s.spawned = 1 := by simpa [hnot] using h.begun
  refine ⟨h.coherent.congr hstage s.worker.closed_receive (iff_of_false hnot' hnot),
    .inr ⟨hnot', hspawned⟩, ?_,
    h.mailed.work (h.mailed.shows.receive) hstage (iff_of_false hnot' hnot), ?_, h.tame⟩
  · change Ruled s.worker.receive.stage _ _
    rw [hstage]
    exact h.ruled
  · change s.accepted = s.handled ++ s.worker.receive.unhandled
    rw [Worker.unhandled_receive]
    exact h.order

theorem Sound.finish (h : s.Sound P) {m : Message β} (hl : s.worker.loop = .handling m) : Sound P
    { s with worker := s.worker.finish.value, handled := s.handled ++ [m] } := by
  have hnot : s.worker.loop ≠ .unstarted := fun hu => by cases hl.symm.trans hu
  have hspawned : s.spawned = 1 := by simpa [hnot] using h.begun
  have horder := h.order
  have hinHand : s.worker.inHand = [m] := by rw [Worker.inHand, hl]
  have hshows := h.mailed.shows.finish hl
  rw [Worker.unhandled, hinHand, ← List.append_assoc] at horder
  rw [Worker.finish_eq hl] at hshows ⊢
  have hloop := iff_of_false (Loop.waiting_ne_unstarted (β := β)) hnot
  exact ⟨h.coherent.congr rfl rfl hloop, .inr ⟨Loop.waiting_ne_unstarted, hspawned⟩, h.ruled,
    h.mailed.work hshows rfl hloop, horder, h.tame⟩

theorem Sound.step {l : List Effect} (h : s.Sound P) (hst : Step P inside s l t) : t.Sound P := by
  cases hst with
  | push hm => exact h.push hm
  | callStart hk => exact h.callStart hk
  | callStop hk => exact h.callStop hk
  | start hk => exact h.start hk
  | close hk => exact h.close hk
  | post hk _ hr => exact h.post hk hr
  | postWithin hk => exact h.postWithin hk
  | join hk => exact h.join hk
  | retire hk => exact h.retire hk
  | settle hk => exact h.settle hk
  | receive hl => exact h.receive hl
  | finish hl => exact h.finish hl

theorem Sound.reaches (h : s.Sound P) (hst : Reaches P inside s t) : t.Sound P := by
  induction hst with
  | refl => exact h
  | tail _ hst ih =>
    obtain ⟨l, hst⟩ := hst
    exact ih.step hst

end Tenure

end Fieldwatch

import Fieldwatch.Proofs.Number.Decimal
import Fieldwatch.Proofs.Settings.Validity

/-! Settings under an environment. There is a variable for some of the settings, one each; the text
of a variable decides on its own setting alone, and no environment makes good settings bad. -/

namespace Fieldwatch.Settings

open Reading

variable {s : Settings} {env : Environment}

def Trimmed {α : Type} (spells : List Char → α → Prop) (text : String) (x : α) : Prop :=
  ∃ core, Trims text.toList core ∧ spells core x

def SpellsIds (text : String) (ids : List FieldId) : Prop :=
  ∃ parts cores : List (List Char), parts ≠ [] ∧ (∀ p ∈ parts, ',' ∉ p) ∧
    text.toList = [','].intercalate parts ∧ List.Forall₂ Trims parts cores ∧
      List.Forall₂ (fun core id => SpellsNatural UInt32.size core (UInt32.toNat id))
        (cores.filter (!·.isEmpty)) ids

inductive Variable where
  | sectorSize
  | viewRadius
  | playerStep
  | npcStep
  | tickThreads
  | tickPeriod
  | queueCapacity
  | sessionQueueCapacity
  | npcField
  | metricsPort
  | monitorInterval
  | fieldIds
deriving DecidableEq

namespace Variable

def name : Variable → String
  | sectorSize => "SECTOR_SIZE"
  | viewRadius => "VIEW_RADIUS"
  | playerStep => "PLAYER_STEP_SECS"
  | npcStep => "NPC_STEP_SECS"
  | tickThreads => "TICK_THREADS"
  | tickPeriod => "TICK_PERIOD_MS"
  | queueCapacity => "FIELD_QUEUE_CAPACITY"
  | sessionQueueCapacity => "SESSION_QUEUE_CAPACITY"
  | npcField => "NPC_FIELD_ID"
  | metricsPort => "METRICS_PORT"
  | monitorInterval => "MONITOR_INTERVAL_SECS"
  | fieldIds => "FIELD_IDS"

def Value : Variable → Type
  | sectorSize | playerStep | npcStep => Float32
  | viewRadius => Int
  | tickThreads | queueCapacity | sessionQueueCapacity => Nat
  | tickPeriod | monitorInterval => UInt64
  | npcField => FieldId
  | metricsPort => UInt16
  | fieldIds => List FieldId

def of : (v : Variable) → Settings → v.Value
  | sectorSize => Settings.sectorSize
  | viewRadius => Settings.viewRadius
  | playerStep => Settings.playerStep
  | npcStep => Settings.npcStep
  | tickThreads => Settings.tickThreads
  | tickPeriod => Settings.tickPeriodMs
  | queueCapacity => Settings.queueCapacity
  | sessionQueueCapacity => Settings.sessionQueueCapacity
  | npcField => Settings.npcFieldId
  | metricsPort => Settings.metricsPort
  | monitorInterval => Settings.monitorInterval
  | fieldIds => Settings.fieldIds

def Spells : (v : Variable) → String → v.Value → Prop
  | sectorSize | playerStep | npcStep => Trimmed SpellsFloat
  | viewRadius => Trimmed (SpellsInteger (UInt32.size / 2))
  | tickThreads | queueCapacity | sessionQueueCapacity => Trimmed (SpellsNatural UInt64.size)
  | tickPeriod | monitorInterval =>
    Trimmed fun cs n => SpellsNatural UInt64.size cs (UInt64.toNat n)
  | npcField => Trimmed fun cs n => SpellsNatural UInt32.size cs (UInt32.toNat n)
  | metricsPort => Trimmed fun cs n => SpellsNatural UInt16.size cs (UInt16.toNat n)
  | fieldIds => SpellsIds

def Accepts : (v : Variable) → v.Value → Prop
  | sectorSize | playerStep | npcStep => fun x => isPositive x
  | viewRadius => fun (z : Int) => 1 ≤ z
  | tickThreads => fun (n : Nat) => 1 ≤ n ∧ n ≤ 64
  | queueCapacity | sessionQueueCapacity => fun (n : Nat) => 0 < n
  | tickPeriod => fun (n : UInt64) => 0 < n
  | metricsPort => fun (n : UInt16) => 0 < n
  | npcField | monitorInterval => fun _ => True
  | fieldIds => fun ids => ids ≠ []

def Sound : (v : Variable) → v.Value → Prop
  | sectorSize => fun x => isPositive x
  | viewRadius => fun (z : Int) => 1 ≤ z
  | playerStep | npcStep => fun (x : Float32) => 0 < x
  | tickThreads | queueCapacity | sessionQueueCapacity => fun (n : Nat) => n ≠ 0
  | tickPeriod => fun (n : UInt64) => n ≠ 0
  | metricsPort => fun (n : UInt16) => n ≠ 0
  | npcField | monitorInterval | fieldIds => fun _ => True

/-- The environment has a text for the variable that spells `x`, and `x` is acceptable. -/
def Gives (v : Variable) (env : Environment) (x : v.Value) : Prop :=
  ∃ text, env v.name = some text ∧ v.Spells text x ∧ v.Accepts x

end Variable

namespace Environment

variable {α : Type} {name : String}

theorem value?_eq_some_iff {read : List Char → Option α} {accept : α → Bool} {x : α} :
    env.value? name read accept = some x ↔
      ∃ text, env name = some text ∧ Trimmed (fun cs y => read cs = some y) text x ∧ accept x := by
  unfold value? Trimmed
  simp only [Option.bind_eq_bind, Option.bind_eq_some_iff, Option.filter_eq_some_iff,
    trim_eq_iff.symm, exists_eq_left']

theorem positive?_eq_some_iff {x : Float32} : env.positive? name = some x ↔
    ∃ text, env name = some text ∧ Trimmed SpellsFloat text x ∧ isPositive x := by
  simp only [positive?, value?_eq_some_iff, float?_eq_some_iff]

theorem natural?_eq_some_iff {low bound n : Nat} : env.natural? name low bound = some n ↔
    ∃ text, env name = some text ∧ Trimmed (SpellsNatural bound) text n ∧ low ≤ n := by
  simp only [natural?, value?_eq_some_iff, Reading.natural?_eq_some_iff, decide_eq_true_iff]

theorem natural?_map_eq_some_iff {low bound : Nat} {word : Nat → α} {number : α → Nat}
    {accepts : α → Prop} {x : α} (hnumber : ∀ n < bound, number (word n) = n)
    (hword : ∀ x, word (number x) = x) (haccepts : ∀ x, low ≤ number x ↔ accepts x) :
    (env.natural? name low bound).map word = some x ↔ ∃ text, env name = some text ∧
      Trimmed (fun cs x => SpellsNatural bound cs (number x)) text x ∧ accepts x := by
  simp only [Option.map_eq_some_iff, natural?_eq_some_iff, ← haccepts]
  constructor
  · rintro ⟨n, ⟨text, htext, ⟨core, hcore, hn⟩, hlow⟩, rfl⟩
    rw [← hnumber n hn.1] at hlow
    refine ⟨text, htext, ⟨core, hcore, ?_⟩, hlow⟩
    change SpellsNatural bound core (number (word n))
    rwa [hnumber n hn.1]
  · rintro ⟨text, htext, hcore, hlow⟩
    exact ⟨number x, ⟨text, htext, hcore, hlow⟩, hword x⟩

theorem items_eq_splitOn (cs : List Char) : items cs = cs.splitOn ',' := by
  induction cs with
  | nil => rfl
  | cons c cs ih =>
    rw [List.splitOn_cons_eq_if_modifyHead, ← ih]
    split
    · next h =>
      rw [beq_iff_eq.1 h]
      rfl
    · next h =>
      obtain ⟨i, is, hitems⟩ := List.exists_cons_of_ne_nil (ih ▸ List.splitOn_ne_nil ',' cs)
      rw [items, hitems]
      · rfl
      · exact fun hc => h (beq_iff_eq.2 hc)

theorem not_mem_of_mem_splitOn {a : Char} {cs p : List Char} (h : p ∈ cs.splitOn a) : a ∉ p := by
  induction cs generalizing p with
  | nil =>
    rw [List.splitOn_nil, List.mem_singleton] at h
    rw [h]
    exact List.not_mem_nil
  | cons c cs ih =>
    rw [List.splitOn_cons_eq_if_modifyHead] at h
    split at h
    · rcases List.mem_cons.1 h with rfl | h
      · exact List.not_mem_nil
      · exact ih h
    · next hc =>
      obtain ⟨q, qs, hq⟩ := List.exists_cons_of_ne_nil (List.splitOn_ne_nil a cs)
      rw [hq] at h ih
      rcases List.mem_cons.1 h with rfl | h
      · refine fun hmem => (List.mem_cons.1 hmem).elim (fun heq => ?_) (ih List.mem_cons_self)
        exact hc (beq_iff_eq.2 heq.symm)
      · exact ih (List.mem_cons_of_mem q h)

theorem items_eq_iff {cs : List Char} {parts : List (List Char)} : items cs = parts ↔
    parts ≠ [] ∧ (∀ p ∈ parts, ',' ∉ p) ∧ cs = [','].intercalate parts := by
  rw [items_eq_splitOn]
  constructor
  · rintro rfl
    exact ⟨List.splitOn_ne_nil _ _, fun p hp => not_mem_of_mem_splitOn hp,
      (List.intercalate_splitOn _).symm⟩
  · rintro ⟨hne, hno, rfl⟩
    exact List.splitOn_intercalate _ hno hne

theorem fieldIds?_eq_some_iff {ids : List FieldId} : env.fieldIds? name = some ids ↔
    ∃ text, env name = some text ∧ SpellsIds text ids ∧ ids ≠ [] := by
  unfold fieldIds?
  simp only [Option.bind_eq_bind, Option.bind_eq_some_iff, mapM_eq_some_iff]
  refine exists_congr fun text => and_congr_right fun _ => ?_
  constructor
  · rintro ⟨ns, hns, hids⟩
    split at hids
    · cases hids
    · next hne =>
      obtain rfl := Option.some_inj.1 hids
      obtain ⟨hparts, hno, htext⟩ := items_eq_iff.1 (rfl : items text.toList = _)
      refine ⟨⟨_, _, hparts, hno, htext, List.forall₂_map_right_iff.2 (List.forall₂_same.2
        fun p _ => trims_trim p), List.forall₂_map_right_iff.2 (hns.imp fun core n hn => ?_)⟩, ?_⟩
      · have hn' := Reading.natural?_eq_some_iff.1 hn
        have hword : n.toUInt32.toNat = n := Nat.mod_eq_of_lt hn'.1
        rwa [hword]
      · exact fun hnil => hne (List.isEmpty_iff.2 (List.map_eq_nil_iff.1 hnil))
  · rintro ⟨⟨parts, cores, hparts, hno, htext, htrims, hids⟩, hne⟩
    have hcores : parts.map trim = cores := by
      rw [← List.forall₂_eq_eq_eq, List.forall₂_map_left_iff]
      exact htrims.imp fun p core h => trim_eq_iff.2 h
    rw [items_eq_iff.2 ⟨hparts, hno, htext⟩, hcores]
    refine ⟨ids.map UInt32.toNat, List.forall₂_map_right_iff.2
      (hids.imp fun core id h => Reading.natural?_eq_some_iff.2 h), ?_⟩
    have hwords : (ids.map UInt32.toNat).map Nat.toUInt32 = ids := by
      rw [List.map_map]
      exact List.map_id'' (fun id => UInt32.ofNat_toNat) ids
    rw [if_neg fun h => hne (List.map_eq_nil_iff.1 (List.isEmpty_iff.1 h)), hwords]

end Environment

theorem exists_override_eq (v : Variable) (s : Settings) (env : Environment) :
    ∃ o : Option v.Value, v.of (s.override env) = o.getD (v.of s) ∧
      ∀ x, o = some x ↔ v.Gives env x := by
  cases v with
  | sectorSize | playerStep | npcStep => exact ⟨_, rfl, fun x => Environment.positive?_eq_some_iff⟩
  | viewRadius =>
    refine ⟨_, rfl, fun (z : Int) => Environment.value?_eq_some_iff.trans ?_⟩
    exact exists_congr fun text => and_congr_right fun _ => and_congr
      (exists_congr fun core => and_congr_right fun _ => integer?_eq_some_iff) decide_eq_true_iff
  | tickThreads =>
    -- the bound of 64 is part of what is read, and of what is accepted
    refine ⟨_, rfl, fun (n : Nat) => Environment.natural?_eq_some_iff.trans ?_⟩
    refine exists_congr fun text => and_congr_right fun _ => ?_
    constructor
    · rintro ⟨⟨core, hcore, hlt, hn⟩, hlow⟩
      exact ⟨⟨core, hcore, hlt.trans (by decide), hn⟩, hlow, Nat.le_of_lt_succ hlt⟩
    · rintro ⟨⟨core, hcore, -, hn⟩, hlow, hhigh⟩
      exact ⟨⟨core, hcore, Nat.lt_succ_of_le hhigh, hn⟩, hlow⟩
  | queueCapacity | sessionQueueCapacity =>
    exact ⟨_, rfl, fun x => Environment.natural?_eq_some_iff⟩
  | tickPeriod =>
    exact ⟨_, rfl, fun x => Environment.natural?_map_eq_some_iff (fun n hn => Nat.mod_eq_of_lt hn)
      (fun x => UInt64.ofNat_toNat) fun n => (UInt64.lt_iff_toNat_lt (a := 0) (b := n)).symm⟩
  | metricsPort =>
    exact ⟨_, rfl, fun x => Environment.natural?_map_eq_some_iff (fun n hn => Nat.mod_eq_of_lt hn)
      (fun x => UInt16.ofNat_toNat) fun n => (UInt16.lt_iff_toNat_lt (a := 0) (b := n)).symm⟩
  | npcField =>
    exact ⟨_, rfl, fun x => Environment.natural?_map_eq_some_iff (fun n hn => Nat.mod_eq_of_lt hn)
      (fun x => UInt32.ofNat_toNat) fun x => iff_of_true (Nat.zero_le _) trivial⟩
  | monitorInterval =>
    exact ⟨_, rfl, fun x => Environment.natural?_map_eq_some_iff (fun n hn => Nat.mod_eq_of_lt hn)
      (fun x => UInt64.ofNat_toNat) fun x => iff_of_true (Nat.zero_le _) trivial⟩
  | fieldIds => exact ⟨_, rfl, fun x => Environment.fieldIds?_eq_some_iff⟩

namespace Variable

theorem name_injective : Function.Injective name := by
  intro v w h
  cases v <;> cases w <;> first | rfl | exact absurd h (by decide)

variable {v : Variable}

theorem of_override_of_gives {x : v.Value} (h : v.Gives env x) : v.of (s.override env) = x := by
  obtain ⟨o, heq, ho⟩ := exists_override_eq v s env
  rw [heq, (ho x).2 h]
  rfl

theorem of_override_of_not_gives (h : ∀ x, ¬ v.Gives env x) :
    v.of (s.override env) = v.of s := by
  obtain ⟨o, heq, ho⟩ := exists_override_eq v s env
  rw [heq, Option.eq_none_iff_forall_ne_some.2 fun x hx => h x ((ho x).1 hx)]
  rfl

theorem Accepts.sound {x : v.Value} (h : v.Accepts x) : v.Sound x := by
  cases v with
  | sectorSize | viewRadius => exact h
  | playerStep | npcStep => exact (isPositive_iff.1 h).2
  | tickThreads => exact Nat.ne_of_gt h.1
  | queueCapacity | sessionQueueCapacity => exact Nat.ne_of_gt h
  | tickPeriod => exact (UInt64.ne_of_lt h).symm
  | metricsPort => exact (UInt16.ne_of_lt h).symm
  | npcField | monitorInterval | fieldIds => trivial

theorem of_override_cases (v : Variable) (s : Settings) (env : Environment) :
    v.of (s.override env) = v.of s ∨ v.Accepts (v.of (s.override env)) := by
  by_cases hx : ∃ x, v.Gives env x
  · obtain ⟨x, hx⟩ := hx
    rw [of_override_of_gives hx]
    obtain ⟨text, -, -, haccepts⟩ := hx
    exact .inr haccepts
  · exact .inl (of_override_of_not_gives (not_exists.1 hx))

theorem sound_override (h : v.Sound (v.of s)) : v.Sound (v.of (s.override env)) := by
  rcases of_override_cases v s env with heq | haccepts
  · rwa [heq]
  · exact haccepts.sound

theorem of_override_congr {env' : Environment} (h : env' v.name = env v.name) :
    v.of (s.override env') = v.of (s.override env) := by
  have hgives : ∀ x, v.Gives env' x ↔ v.Gives env x := fun x => by rw [Gives, h, Gives]
  by_cases hx : ∃ x, v.Gives env x
  · obtain ⟨x, hx⟩ := hx
    rw [of_override_of_gives hx, of_override_of_gives ((hgives x).2 hx)]
  · have hno := not_exists.1 hx
    rw [of_override_of_not_gives hno, of_override_of_not_gives fun x h => hno x ((hgives x).1 h)]

end Variable

theorem IsValid.override (h : s.IsValid) (env : Environment) : (s.override env).IsValid where
  sectorSize := Variable.sound_override (v := .sectorSize) h.sectorSize
  viewRadius := Variable.sound_override (v := .viewRadius) h.viewRadius
  playerStep := Variable.sound_override (v := .playerStep) h.playerStep
  npcStep := Variable.sound_override (v := .npcStep) h.npcStep
  maxPlayerSteps := h.maxPlayerSteps
  maxNpcSteps := h.maxNpcSteps
  playerSpeed := h.playerSpeed
  idleTimeout := h.idleTimeout
  npcRespawn := h.npcRespawn
  skillDamage := h.skillDamage
  tickThreads := Variable.sound_override (v := .tickThreads) h.tickThreads
  tickPeriodMs := Variable.sound_override (v := .tickPeriod) h.tickPeriodMs
  queueCapacity := Variable.sound_override (v := .queueCapacity) h.queueCapacity
  sessionQueueCapacity :=
    Variable.sound_override (v := .sessionQueueCapacity) h.sessionQueueCapacity
  metricsPort := Variable.sound_override (v := .metricsPort) h.metricsPort

/-- A variable with an acceptable text decides on its own setting, and nothing else does. The
settings without a variable stay as they are, and settings that could be worked with still can. -/
theorem override_by_variables (s : Settings) (env : Environment) :
    Function.Injective Variable.name ∧
    (∀ v : Variable, (∀ x, v.Gives env x → v.of (s.override env) = x) ∧
      ((∀ x, ¬ v.Gives env x) → v.of (s.override env) = v.of s) ∧
      ∀ env' : Environment, env' v.name = env v.name →
        v.of (s.override env') = v.of (s.override env)) ∧
    ((s.override env).maxPlayerSteps = s.maxPlayerSteps ∧
      (s.override env).maxNpcSteps = s.maxNpcSteps ∧
      (s.override env).idleTimeout = s.idleTimeout ∧
      (s.override env).playerSpeed = s.playerSpeed ∧
      (s.override env).skillDamage = s.skillDamage ∧
      (s.override env).npcRespawn = s.npcRespawn) ∧
    (s.fault? = none → (s.override env).fault? = none) := by
  refine ⟨Variable.name_injective, fun v => ⟨fun x hx => Variable.of_override_of_gives hx,
    Variable.of_override_of_not_gives, fun env' h => Variable.of_override_congr h⟩,
    ⟨rfl, rfl, rfl, rfl, rfl, rfl⟩, fun h => ?_⟩
  exact fault?_eq_none_iff.2 ((fault?_eq_none_iff.1 h).override env)

theorem override_by_variables_mixed :
    let env : Environment := fun name =>
      if name = "SECTOR_SIZE" then some " +25e-1\n" else if name = "TICK_THREADS" then some "65"
      else if name = "FIELD_IDS" then some "7, ,8," else none
    let s := ({} : Settings).override env
    s.sectorSize = 2.5 ∧ s.tickThreads = 3 ∧ s.fieldIds = [7, 8] ∧ s.playerStep = 0.05 ∧
      s.fault? = none := by
  intro env s
  obtain ⟨-, hvariables, -, hfault⟩ := override_by_variables {} env
  have hsize : Variable.sectorSize.Gives env (2.5 : Float32) :=
    Environment.positive?_eq_some_iff.1 (by rfl)
  have hids : Variable.fieldIds.Gives env [(7 : FieldId), 8] :=
    Environment.fieldIds?_eq_some_iff.1 (by decide +kernel)
  -- 65 threads are a number, but too many
  have hthreads : ∀ n, ¬ Variable.tickThreads.Gives env n := by
    rintro (n : Nat) ⟨text, htext, hspells, -, hhigh⟩
    have hread : env.natural? "TICK_THREADS" 0 UInt64.size = some n :=
      Environment.natural?_eq_some_iff.2 ⟨text, htext, hspells, Nat.zero_le n⟩
    have hmany : env.natural? "TICK_THREADS" 0 UInt64.size = some 65 := by decide +kernel
    have hn : n = 65 := Option.some_inj.1 (hread.symm.trans hmany)
    rw [hn] at hhigh
    exact absurd hhigh (by decide)
  have hstep : ∀ x, ¬ Variable.playerStep.Gives env x := by
    rintro x ⟨text, htext, -⟩
    cases htext
  exact ⟨(hvariables .sectorSize).1 _ hsize, (hvariables .tickThreads).2.1 hthreads,
    (hvariables .fieldIds).1 _ hids, (hvariables .playerStep).2.1 hstep, hfault (by decide +kernel)⟩

end Fieldwatch.Settings

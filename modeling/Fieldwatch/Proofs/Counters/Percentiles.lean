import Fieldwatch.Counters
import Fieldwatch.Proofs.Number.Whole
import Mathlib.Data.List.Induction

/-! What the counters tell of the times that steps took. The last thousand of them are kept. From
the tenth on the greatest of these is shown, and the two that ninety-five and ninety-nine hundredths
of them do not get past. Where the two stand among the sorted times is found in single precision. -/

namespace Fieldwatch

theorem drop_concat {α : Type} (l : List α) (x : α) (k : ℕ) :
    (l.drop (l.length - k) ++ [x]).drop ((l.drop (l.length - k) ++ [x]).length - k) =
      (l ++ [x]).drop ((l ++ [x]).length - k) := by
  rw [← List.drop_append_of_le_length (Nat.sub_le _ _), List.drop_drop, List.length_drop]
  congr 1
  rw [List.length_append, List.length_singleton]
  omega

section Sorted

variable {l : List UInt64} {i j : ℕ} {x y : UInt64}

theorem le_of_getElem? (hl : l.Pairwise (· ≤ ·)) (hij : i ≤ j) (hx : l[i]? = some x)
    (hy : l[j]? = some y) : x ≤ y := by
  obtain ⟨hi, rfl⟩ := List.getElem?_eq_some_iff.1 hx
  obtain ⟨hj, rfl⟩ := List.getElem?_eq_some_iff.1 hy
  rcases hij.lt_or_eq with hlt | rfl
  · exact List.pairwise_iff_getElem.1 hl i j hi hj hlt
  · exact UInt64.le_refl _

theorem lt_countP_le (hl : l.Pairwise (· ≤ ·)) (hx : l[i]? = some x) :
    i < l.countP (· ≤ x) := by
  induction l generalizing i with
  | nil => cases hx
  | cons y l ih =>
    obtain ⟨hy, hl⟩ := List.pairwise_cons.1 hl
    cases i with
    | zero =>
      obtain rfl : y = x := Option.some_inj.1 hx
      exact List.countP_pos_iff.2 ⟨y, List.mem_cons_self, decide_eq_true (UInt64.le_refl y)⟩
    | succ i =>
      have hyx : y ≤ x := hy x (List.mem_of_getElem? hx)
      rw [List.countP_cons_of_pos (p := (· ≤ x)) (decide_eq_true hyx)]
      exact Nat.succ_lt_succ (ih hl hx)

theorem length_le_countP_ge (hl : l.Pairwise (· ≤ ·)) (hx : l[i]? = some x) :
    l.length ≤ l.countP (x ≤ ·) + i := by
  induction l generalizing i with
  | nil => cases hx
  | cons y l ih =>
    obtain ⟨hy, hl⟩ := List.pairwise_cons.1 hl
    cases i with
    | zero =>
      obtain rfl : y = x := Option.some_inj.1 hx
      have hall : ∀ z ∈ y :: l, decide (y ≤ z) = true :=
        List.forall_mem_cons.2
          ⟨decide_eq_true (UInt64.le_refl y), fun z hz => decide_eq_true (hy z hz)⟩
      exact (List.countP_eq_length.2 hall).ge
    | succ i =>
      have hrest : l.countP (x ≤ ·) ≤ (y :: l).countP (x ≤ ·) :=
        (List.sublist_cons_self y l).countP_le
      have := ih hl hx
      rw [List.length_cons]
      omega

end Sorted

namespace Counters

/-- How far into `n` sorted times a fraction of them reaches. -/
def rank (n : ℕ) (fraction : Float32) : ℕ := (n.toUInt64.toFloat32 * fraction).toUInt64.toNat

theorem percentile_eq (l : List UInt64) (c : Float32) :
    percentile l c = l.getD (min (rank l.length c) (l.length - 1)) 0 := rfl

open Single in
theorem isPercentage_95 : IsPercentage 95 0.95 := by
  have hbits : (0.95 : Float32).toBits = 1064514355 := by decide +kernel
  obtain ⟨hfin, hval⟩ := value_of_toBits (s := .positive) (m := 15938355) (e := -24) hbits rfl
  refine ⟨hfin, ?_, by norm_num, by norm_num⟩
  rw [hval, signed_positive, abs_lt]
  constructor <;> norm_num

open Single in
theorem isPercentage_99 : IsPercentage 99 0.99 := by
  have hbits : (0.99 : Float32).toBits = 1065185444 := by decide +kernel
  obtain ⟨hfin, hval⟩ := value_of_toBits (s := .positive) (m := 16609444) (e := -24) hbits rfl
  refine ⟨hfin, ?_, by norm_num, by norm_num⟩
  rw [hval, signed_positive, abs_lt]
  constructor <;> norm_num

def micros (nanos : ℕ) : UInt64 := (nanos / 1000).toUInt64

def recorded (spans : List ℕ) : Counters := (spans.map micros).foldl recordStep {}

def sorted (times : List UInt64) : List UInt64 := times.mergeSort (· ≤ ·)

structure Surveys (times : List UInt64) (m : Counters) : Prop where
  p95 : m.tickTimeP95 = percentile (sorted times) 0.95
  p99 : m.tickTimeP99 = percentile (sorted times) 0.99
  max : m.tickTimeMax = (sorted times).getLastD 0

structure Follows (times : List UInt64) (m : Counters) : Prop where
  tickCount : m.tickCount = times.length.toUInt64
  tickTime : m.tickTime = times.getLastD 0
  history : m.history = times.drop (times.length - historyLength)
  early : times.length < percentileThreshold →
    m.tickTimeP95 = 0 ∧ m.tickTimeP99 = 0 ∧ m.tickTimeMax = 0
  late : percentileThreshold ≤ times.length → Surveys m.history m

section Recording

variable {m : Counters} {times : List UInt64}

theorem follows_fresh : Follows [] {} :=
  ⟨rfl, rfl, rfl, fun _ => ⟨rfl, rfl, rfl⟩, fun h => absurd h (by decide)⟩

theorem history_recordStep (m : Counters) (us : UInt64) : (m.recordStep us).history =
    (m.history ++ [us]).drop ((m.history ++ [us]).length - historyLength) := by
  unfold recordStep
  dsimp only
  split <;> dsimp only

theorem tickCount_recordStep (m : Counters) (us : UInt64) :
    (m.recordStep us).tickCount = m.tickCount + 1 := by
  unfold recordStep
  dsimp only
  split <;> rfl

theorem tickTime_recordStep (m : Counters) (us : UInt64) : (m.recordStep us).tickTime = us := by
  unfold recordStep
  dsimp only
  split <;> rfl

theorem recordStep_of_short {us : UInt64}
    (h : (m.recordStep us).history.length < percentileThreshold) :
    (m.recordStep us).tickTimeP95 = m.tickTimeP95 ∧
      (m.recordStep us).tickTimeP99 = m.tickTimeP99 ∧
      (m.recordStep us).tickTimeMax = m.tickTimeMax := by
  rw [history_recordStep] at h
  unfold recordStep
  dsimp only
  rw [if_pos h]
  exact ⟨rfl, rfl, rfl⟩

theorem surveys_recordStep {us : UInt64}
    (h : ¬ (m.recordStep us).history.length < percentileThreshold) :
    Surveys (m.recordStep us).history (m.recordStep us) := by
  rw [history_recordStep] at h ⊢
  unfold recordStep
  dsimp only
  rw [if_neg h]
  exact ⟨rfl, rfl, rfl⟩

theorem Follows.recordStep (h : Follows times m) (us : UInt64) :
    Follows (times ++ [us]) (m.recordStep us) := by
  have hhistory : (m.recordStep us).history =
      (times ++ [us]).drop ((times ++ [us]).length - historyLength) := by
    rw [history_recordStep, h.history, drop_concat]
  have hlen : (m.recordStep us).history.length = Min.min (times ++ [us]).length historyLength := by
    rw [hhistory, List.length_drop]
    omega
  refine ⟨?_, ?_, hhistory, fun hn => ?_, fun hn => surveys_recordStep ?_⟩
  · rw [tickCount_recordStep, h.tickCount, List.length_append]
    exact (UInt64.ofNat_add _ _).symm
  · rw [tickTime_recordStep, List.getLastD_concat]
  · have hshort : times.length < percentileThreshold := by
      rw [List.length_append] at hn
      omega
    have hkept : (m.recordStep us).history.length < percentileThreshold := by omega
    obtain ⟨h95, h99, hmax⟩ := recordStep_of_short hkept
    rw [h95, h99, hmax]
    exact h.early hshort
  · -- what is kept are fewer than ten times only if there have not been more
    rw [hlen]
    unfold percentileThreshold historyLength at *
    omega

theorem follows_recorded (spans : List ℕ) : Follows (spans.map micros) (recorded spans) := by
  induction spans using List.reverseRecOn with
  | nil => exact follows_fresh
  | append_singleton spans d ih =>
    have hlast : recorded (spans ++ [d]) = (recorded spans).recordStep (micros d) := by
      unfold recorded
      rw [List.map_append, List.map_singleton, List.foldl_concat]
    rw [hlast, List.map_append, List.map_singleton]
    exact ih.recordStep _

end Recording

section Surveying

open Single

variable {times : List UInt64} {p : ℕ} {c : Float32}

theorem sorted_perm (times : List UInt64) : (sorted times).Perm times := List.mergeSort_perm _ _

theorem pairwise_sorted (times : List UInt64) : (sorted times).Pairwise (· ≤ ·) := by
  have hsort : (sorted times).Pairwise (fun a b => decide (a ≤ b) = true) :=
    List.pairwise_mergeSort (fun a b c => ?_) (fun a b => ?_) times
  · exact hsort.imp of_decide_eq_true
  · rw [decide_eq_true_iff, decide_eq_true_iff, decide_eq_true_iff]
    exact UInt64.le_trans
  · rw [Bool.or_eq_true, decide_eq_true_iff, decide_eq_true_iff]
    exact UInt64.le_total a b

theorem length_sorted (times : List UInt64) : (sorted times).length = times.length :=
  (sorted_perm times).length_eq

/-- `x` is one of the times; more than `p` hundredths of them do not get past it, and at least the
other hundredths do not stay below it. -/
structure IsPercentile (p : ℕ) (times : List UInt64) (x : UInt64) : Prop where
  mem : x ∈ times
  below : p * times.length < 100 * times.countP (· ≤ x)
  above : (100 - p) * times.length ≤ 100 * times.countP (x ≤ ·)

theorem isPercentile_of_getElem? {x : UInt64}
    (hx : (sorted times)[p * times.length / 100]? = some x) : IsPercentile p times x := by
  have hbelow := lt_countP_le (pairwise_sorted times) hx
  have habove := length_le_countP_ge (pairwise_sorted times) hx
  rw [(sorted_perm times).countP_eq] at hbelow habove
  rw [length_sorted] at habove
  have hcut : p * times.length / 100 * 100 ≤ p * times.length := Nat.div_mul_le_self _ _
  have hrest : (100 - p) * times.length = 100 * times.length - p * times.length :=
    Nat.sub_mul _ _ _
  exact ⟨(sorted_perm times).mem_iff.1 (List.mem_of_getElem? hx), by omega, by omega⟩

theorem getElem?_rank (hc : IsPercentage p c) (h0 : 0 < times.length)
    (h1 : times.length ≤ historyLength) : rank times.length c = p * times.length / 100 ∧
      (sorted times)[rank times.length c]? = some (percentile (sorted times) c) := by
  have hrank : rank times.length c = p * times.length / 100 := hc.toNat_mul h1 h0
  have hlt : rank times.length c < times.length := by
    have hp := hc.lt_whole
    rw [hrank, Nat.div_lt_iff_lt_mul (by decide), Nat.mul_comm times.length]
    exact Nat.mul_lt_mul_of_pos_right hp h0
  have hin : rank times.length c < (sorted times).length := by rwa [length_sorted]
  have hclamp : Min.min (rank times.length c) (times.length - 1) = rank times.length c :=
    Nat.min_eq_left (Nat.le_sub_one_of_lt hlt)
  refine ⟨hrank, ?_⟩
  rw [percentile_eq, length_sorted, hclamp, List.getD_eq_getElem?_getD,
    List.getElem?_eq_getElem hin, Option.getD_some]

theorem getElem?_max (h0 : 0 < times.length) :
    (sorted times)[times.length - 1]? = some ((sorted times).getLastD 0) := by
  have hlast : times.length - 1 < (sorted times).length := by
    rw [length_sorted]
    omega
  rw [List.getLastD_eq_getLast?, List.getLast?_eq_getElem?, length_sorted,
    List.getElem?_eq_getElem hlast, Option.getD_some]

theorem le_max (h0 : 0 < times.length) {us : UInt64} (hus : us ∈ times) :
    us ≤ (sorted times).getLastD 0 := by
  obtain ⟨i, hi, rfl⟩ := List.getElem_of_mem ((sorted_perm times).mem_iff.2 hus)
  have hlen := length_sorted times
  exact le_of_getElem? (pairwise_sorted times) (by omega) (List.getElem?_eq_getElem hi)
    (getElem?_max h0)

theorem Surveys.spec {m : Counters} (hs : Surveys times m) (h0 : 0 < times.length)
    (h1 : times.length ≤ historyLength) :
    (m.tickTimeMax ∈ times ∧ ∀ us ∈ times, us ≤ m.tickTimeMax) ∧
      IsPercentile 95 times m.tickTimeP95 ∧ IsPercentile 99 times m.tickTimeP99 ∧
      m.tickTimeP95 ≤ m.tickTimeP99 ∧ m.tickTimeP99 ≤ m.tickTimeMax ∧
      (sorted times)[rank times.length 0.95]? = some m.tickTimeP95 ∧
      (sorted times)[rank times.length 0.99]? = some m.tickTimeP99 := by
  obtain ⟨hr95, h95⟩ := getElem?_rank isPercentage_95 h0 h1
  obtain ⟨hr99, h99⟩ := getElem?_rank isPercentage_99 h0 h1
  rw [← hs.p95] at h95
  rw [← hs.p99] at h99
  have hsorted := pairwise_sorted times
  have hmem : m.tickTimeMax ∈ times := by
    rw [hs.max]
    exact (sorted_perm times).mem_iff.1 (List.mem_of_getElem? (getElem?_max h0))
  have hp95 : IsPercentile 95 times m.tickTimeP95 := isPercentile_of_getElem? (hr95 ▸ h95)
  have hp99 : IsPercentile 99 times m.tickTimeP99 := isPercentile_of_getElem? (hr99 ▸ h99)
  have hle : rank times.length 0.95 ≤ rank times.length 0.99 := by omega
  refine ⟨⟨hmem, fun us hus => ?_⟩, hp95, hp99, le_of_getElem? hsorted hle h95 h99, ?_, h95, h99⟩
  · rw [hs.max]
    exact le_max h0 hus
  · rw [hs.max]
    exact le_max h0 hp99.mem

end Surveying

/-- The counters after `n` steps: how many there were, how long the last one took, and the last
thousand of the times; and from the tenth step on the percentiles of these and the greatest one. -/
theorem percentiles_roll (spans : List ℕ) :
    let m := recorded spans
    let n := spans.length
    let size := Min.min n 1000
    m.tickCount = n.toUInt64 ∧ m.tickTime = micros (spans.getLastD 0) ∧
    m.history = (spans.map micros).drop (n - 1000) ∧ m.history.length = size ∧
    (n < 10 → m.tickTimeP95 = 0 ∧ m.tickTimeP99 = 0 ∧ m.tickTimeMax = 0) ∧
    (10 ≤ n →
      (m.tickTimeMax ∈ m.history ∧ ∀ us ∈ m.history, us ≤ m.tickTimeMax) ∧
      IsPercentile 95 m.history m.tickTimeP95 ∧ IsPercentile 99 m.history m.tickTimeP99 ∧
      m.tickTimeP95 ≤ m.tickTimeP99 ∧ m.tickTimeP99 ≤ m.tickTimeMax ∧
      (sorted m.history)[rank size 0.95]? = some m.tickTimeP95 ∧
      (sorted m.history)[rank size 0.99]? = some m.tickTimeP99) := by
  intro m n size
  have h : Follows (spans.map micros) m := follows_recorded spans
  have hlen : (spans.map micros).length = n := List.length_map _
  have hsize : m.history.length = size := by
    rw [h.history, List.length_drop, hlen, Nat.sub_sub_eq_min]
    rfl
  have hlast : m.tickTime = micros (spans.getLastD 0) := by
    rw [h.tickTime, List.getLastD_eq_getLast?, List.getLast?_map, List.getLastD_eq_getLast?]
    cases spans.getLast? <;> rfl
  have hhistory := h.history
  have htick := h.tickCount
  have hearly := h.early
  rw [hlen] at hhistory htick hearly
  refine ⟨htick, hlast, hhistory, hsize, hearly, fun hn => ?_⟩
  have hs : Surveys m.history m := h.late (hlen.symm ▸ hn)
  have h0 : 0 < m.history.length := by omega
  have h1 : m.history.length ≤ historyLength := hsize.trans_le (Nat.min_le_right _ _)
  rw [← hsize]
  exact hs.spec h0 h1

end Counters
end Fieldwatch

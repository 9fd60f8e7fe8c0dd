/-! A result together with the list of what was announced on the way to it. Announcements of a
sequence of steps come in the order of the steps. -/

namespace Fieldwatch

structure Emit (ε α : Type) where
  value : α
  log : List ε

namespace Emit

variable {ε δ α γ : Type}

def ofLog (log : List ε) : Emit ε Unit := ⟨(), log⟩

instance : Monad (Emit ε) where
  pure a := ⟨a, []⟩
  bind m f :=
    let n := f m.value
    ⟨n.value, m.log ++ n.log⟩

def mapLog (f : List ε → List δ) (m : Emit ε α) : Emit δ α := ⟨m.value, f m.log⟩

@[ext] theorem ext {m n : Emit ε α} (hv : m.value = n.value) (hl : m.log = n.log) : m = n := by
  cases m; cases n; simp_all

@[simp] theorem value_pure (a : α) : (pure a : Emit ε α).value = a := rfl

@[simp] theorem log_pure (a : α) : (pure a : Emit ε α).log = [] := rfl

@[simp] theorem value_bind (m : Emit ε α) (f : α → Emit ε γ) :
    (m >>= f).value = (f m.value).value := rfl

@[simp] theorem log_bind (m : Emit ε α) (f : α → Emit ε γ) :
    (m >>= f).log = m.log ++ (f m.value).log := rfl

@[simp] theorem value_map (g : α → γ) (m : Emit ε α) : (g <$> m).value = g m.value := rfl

@[simp] theorem log_map (g : α → γ) (m : Emit ε α) : (g <$> m).log = m.log :=
  List.append_nil _

@[simp] theorem value_ofLog (l : List ε) : (ofLog l).value = () := rfl

@[simp] theorem log_ofLog (l : List ε) : (ofLog l).log = l := rfl

@[simp] theorem value_mapLog (f : List ε → List δ) (m : Emit ε α) :
    (m.mapLog f).value = m.value := rfl

@[simp] theorem log_mapLog (f : List ε → List δ) (m : Emit ε α) :
    (m.mapLog f).log = f m.log := rfl

instance : LawfulMonad (Emit ε) :=
  LawfulMonad.mk' _ (fun _ => ext rfl (List.append_nil _)) (fun _ _ => rfl)
    (fun _ _ _ => ext rfl (List.append_assoc ..))

theorem bind_congr {m : Emit ε α} {f g : α → Emit ε γ} (h : f m.value = g m.value) :
    m >>= f = m >>= g :=
  ext (by rw [value_bind, value_bind, h]) (by rw [log_bind, log_bind, h])

theorem value_foldlM (f : α → γ → Emit ε α) (l : List γ) (a : α) :
    (l.foldlM f a).value = l.foldl (fun a c => (f a c).value) a := by
  induction l generalizing a with
  | nil => rfl
  | cons c l ih => simp [ih]

end Emit
end Fieldwatch

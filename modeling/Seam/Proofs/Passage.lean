import Seam.Proofs.Effect
import Seam.Machine

/-!
The way of a machine through a list of lines, with the machine before and after
each of them. A replay that succeeds is such a passage (`Passage.of_replay`), and which
lines a passage has decides whether it exists. The search for the floor takes the same
way (`Floor.search_cons_eq_ok_iff`, `Floor.replay_of_search`).
-/
namespace Seam

theorem Except.bind_eq_ok_iff {ε β γ : Type} {x : Except ε β} {f : β → Except ε γ} {c : γ} :
    x >>= f = .ok c ↔ ∃ b, x = .ok b ∧ f b = .ok c := by
  cases x <;> simp [bind, Except.bind]

theorem Except.bind_eq_error_iff {ε β γ : Type} {x : Except ε β} {f : β → Except ε γ} {e : ε} :
    x >>= f = .error e ↔ x = .error e ∨ ∃ b, x = .ok b ∧ f b = .error e := by
  cases x <;> simp [bind, Except.bind]

theorem Except.bind_congr_of_ok {ε β γ : Type} {x : Except ε β} {f g : β → Except ε γ}
    (same : ∀ b, x = .ok b → f b = g b) : x >>= f = x >>= g := by
  cases x with
  | error e => rfl
  | ok b => exact same b rfl

theorem Except.map_eq_ok_iff {ε β γ : Type} {x : Except ε β} {f : β → γ} {c : γ} :
    x.map f = .ok c ↔ ∃ b, x = .ok b ∧ f b = c := by
  cases x <;> simp [Except.map]

theorem Except.mapError_eq_ok_iff {ε η β : Type} {x : Except ε β} {f : ε → η} {b : β} :
    x.mapError f = .ok b ↔ x = .ok b := by
  cases x with
  | error e => constructor <;> (intro same; cases same)
  | ok a => rw [show Except.mapError f (.ok a) = .ok a from rfl, Except.ok.injEq, Except.ok.injEq]

theorem Except.mapError_eq_error_iff {ε η β : Type} {x : Except ε β} {f : ε → η} {e : η} :
    x.mapError f = .error e ↔ ∃ d, x = .error d ∧ e = f d := by
  cases x with
  | error d =>
    rw [show Except.mapError f (.error d : Except ε β) = .error (f d) from rfl, Except.error.injEq]
    constructor
    · intro same
      exact ⟨d, rfl, same.symm⟩
    · rintro ⟨_, same, rfl⟩
      cases same
      rfl
  | ok a =>
    constructor
    · intro same
      cases same
    · rintro ⟨_, same, _⟩
      cases same

/-- A line with the machine before and after it. -/
structure Transition (α : Type) where
  before : Machine α
  line : Command α
  after : Machine α

def Transition.isLinear {α : Type} (t : Transition α) : Bool := t.line.isLinear

/-- The filament that a line pushes. -/
def Transition.pushed {α : Type} [Scalar α] (t : Transition α) : α :=
  t.after.physicalExtrusion - t.before.physicalExtrusion

/-- The first machine passes through the transitions and is the second one behind them. -/
inductive Passage {α : Type} [Scalar α] : Machine α → List (Transition α) → Machine α → Prop
  | nil (m : Machine α) : Passage m [] m
  | cons {m next last : Machine α} {c : Command α} {ts : List (Transition α)} (stepped : m.after c = .ok next)
      (rest : Passage next ts last) : Passage m (⟨m, c, next⟩ :: ts) last

variable {α : Type} [Scalar α] {m mid last : Machine α} {ts us : List (Transition α)}

namespace Machine

theorem replay_cons_eq_ok_iff {c : Command α} {cs : List (Command α)} :
    m.replay (c :: cs) = .ok last ↔ ∃ next, m.after c = .ok next ∧ next.replay cs = .ok last := by
  rw [replay_cons]
  cases m.after c <;> simp [Except.bind]

theorem replay_append_eq_ok_iff {cs ds : List (Command α)} :
    m.replay (cs ++ ds) = .ok last ↔ ∃ mid, m.replay cs = .ok mid ∧ mid.replay ds = .ok last := by
  rw [replay_append]
  cases m.replay cs <;> simp [Except.bind]

end Machine

namespace Passage

theorem append (front : Passage m ts mid) (back : Passage mid us last) : Passage m (ts ++ us) last := by
  induction front with
  | nil m => exact back
  | cons stepped _ ih => exact .cons stepped (ih back)

theorem of_append (whole : Passage m (ts ++ us) last) : ∃ mid, Passage m ts mid ∧ Passage mid us last := by
  induction ts generalizing m with
  | nil => exact ⟨m, .nil m, whole⟩
  | cons t ts ih =>
    cases whole with
    | cons stepped rest =>
      obtain ⟨mid, front, back⟩ := ih rest
      exact ⟨mid, .cons stepped front, back⟩

theorem replay (passes : Passage m ts last) : m.replay (ts.map (·.line)) = .ok last := by
  induction passes with
  | nil m => rfl
  | cons stepped _ ih =>
    rw [List.map_cons, Machine.replay_cons, stepped]
    exact ih

theorem of_replay {cs : List (Command α)} (replayed : m.replay cs = .ok last) :
    ∃ ts, Passage m ts last ∧ ts.map (·.line) = cs := by
  induction cs generalizing m with
  | nil => cases replayed; exact ⟨[], .nil _, rfl⟩
  | cons c cs ih =>
    obtain ⟨next, stepped, rest⟩ := Machine.replay_cons_eq_ok_iff.mp replayed
    obtain ⟨ts, passes, lines⟩ := ih rest
    exact ⟨⟨m, c, next⟩ :: ts, .cons stepped passes, by rw [List.map_cons, lines]⟩

theorem step_of_mem (passes : Passage m ts last) {t : Transition α} (mem : t ∈ ts) :
    t.before.after t.line = .ok t.after := by
  induction passes with
  | nil => cases mem
  | cons stepped _ ih =>
    rcases List.mem_cons.mp mem with rfl | later
    · exact stepped
    · exact ih later

end Passage

namespace Floor

variable {floor lowest : α} {c : Command α} {cs : List (Command α)}

/-- The machine and the floor behind the lines, from those before them. -/
def search (m : Machine α) (floor : α) (commands : List (Command α)) : Except (Fault α) (Machine α × α) :=
  commands.foldlM (fun (m, floor) c => do
    let next ← m.after c
    return (next, ← lower floor next)) (m, floor)

theorem search_cons :
    search m floor (c :: cs) = m.after c >>= fun next => lower floor next >>= fun f => search next f cs := by
  simp only [search, List.foldlM_cons, bind_assoc, pure_bind]

theorem search_cons_eq_ok_iff {last : Machine α × α} :
    search m floor (c :: cs) = .ok last ↔
      ∃ next f, m.after c = .ok next ∧ lower floor next = .ok f ∧ search next f cs = .ok last := by
  simp only [search_cons, Except.bind_eq_ok_iff, exists_and_left]

theorem ofCommands_eq_search (commands : List (Command α)) :
    ofCommands commands = search Machine.powerOn 0 commands >>= fun last => pure last.2 := rfl

theorem ofCommands_eq_ok_iff {commands : List (Command α)} :
    ofCommands commands = .ok lowest ↔ ∃ last, search Machine.powerOn 0 commands = .ok (last, lowest) := by
  rw [ofCommands_eq_search, Except.bind_eq_ok_iff]
  constructor
  · rintro ⟨⟨last, f⟩, searched, same⟩
    cases same
    exact ⟨last, searched⟩
  · rintro ⟨last, searched⟩
    exact ⟨(last, lowest), searched, rfl⟩

theorem replay_of_search (searched : search m floor cs = .ok (last, lowest)) : m.replay cs = .ok last := by
  induction cs generalizing m floor with
  | nil => cases searched; rfl
  | cons c cs ih =>
    obtain ⟨next, _, stepped, _, later⟩ := search_cons_eq_ok_iff.mp searched
    exact Machine.replay_cons_eq_ok_iff.mpr ⟨next, stepped, ih later⟩

end Floor

end Seam

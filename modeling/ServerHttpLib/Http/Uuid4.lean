import ServerHttpLib.Http.Utils

/-!
# Random identifiers (`uuid4`)

`generate` draws 30 digits from a generator that the process shares, and writes them with their
dashes (`hexText_generate`).
-/

namespace ServerHttpLib
namespace Uuid4

abbrev Drawn (lo hi : Nat) : Type := {d : Nat // lo ≤ d ∧ d ≤ hi}

/-- the two distributions over the generator -/
structure Random (σ : Type) where
  dis : σ → Drawn 0 15 × σ
  dis2 : σ → Drawn 8 11 × σ

/-- a digit as `std::hex` writes it -/
def hexDigit (d : Nat) : UInt8 := if d < 10 then UInt8.ofNat (48 + d) else UInt8.ofNat (87 + d)

section
variable {σ : Type} (random : Random σ)

def draw : Nat → σ → Bytes × σ
  | 0, w => ([], w)
  | n + 1, w =>
    let d := random.dis w
    let rest := draw n d.2
    (hexDigit d.1 :: rest.1, rest.2)

def generate (w : σ) : Bytes × σ :=
  let a := draw random 8 w
  let b := draw random 4 a.2
  let c := draw random 3 b.2
  let d := random.dis2 c.2
  let e := draw random 3 d.2
  let f := draw random 12 e.2
  (a.1 ++ str "-" ++ b.1 ++ str "-4" ++ c.1 ++ str "-" ++ [hexDigit d.1] ++ e.1 ++ str "-" ++ f.1,
    f.2)

end

/-- a text of `n` digits and dashes -/
structure HexText (n : Nat) (s : Bytes) : Prop where
  length : s.length = n
  digits : ∀ c ∈ s, (hexVal c).isSome = true ∨ c = ch '-'

theorem HexText.free {n : Nat} {s : Bytes} (h : HexText n s) {c : UInt8} (hc : hexVal c = none)
    (hdash : c ≠ ch '-') : c ∉ s := by
  intro hm
  rcases h.digits c hm with hd | hd
  · rw [hc] at hd
    exact absurd hd (by simp)
  · exact hdash hd

theorem HexText.append {m n : Nat} {s t : Bytes} (hs : HexText m s) (ht : HexText n t) :
    HexText (m + n) (s ++ t) := by
  refine ⟨by rw [List.length_append, hs.length, ht.length], fun c hc => ?_⟩
  rcases List.mem_append.mp hc with hc | hc
  · exact hs.digits c hc
  · exact ht.digits c hc

theorem hexText_digit {d : Nat} (h : d ≤ 15) : HexText 1 [hexDigit d] := by
  have key : ∀ d : Fin 16, (hexVal (hexDigit d)).isSome = true := by decide
  refine ⟨rfl, fun c hc => .inl ?_⟩
  rw [List.mem_singleton.mp hc]
  exact key ⟨d, by omega⟩

theorem hexText_draw {σ : Type} (random : Random σ) (n : Nat) (w : σ) :
    HexText n (draw random n w).1 := by
  induction n generalizing w with
  | zero => exact ⟨rfl, fun c hc => absurd hc List.not_mem_nil⟩
  | succ n ih =>
    have h := (hexText_digit (random.dis w).1.2.2).append (ih (random.dis w).2)
    rw [Nat.add_comm 1 n] at h
    exact h

/-- **An identifier** has 36 characters, digits and dashes. -/
theorem hexText_generate {σ : Type} (random : Random σ) (w : σ) :
    HexText 36 (generate random w).1 := by
  have hdash : HexText 1 (str "-") := by
    refine ⟨rfl, fun c hc => .inr ?_⟩
    exact List.mem_singleton.mp hc
  have hversion : HexText 2 (str "-4") := hdash.append (hexText_digit (by omega : 4 ≤ 15))
  have hvariant : ∀ w, HexText 1 [hexDigit (random.dis2 w).1] := fun w =>
    hexText_digit ((random.dis2 w).1.2.2.trans (by omega))
  have hdraw := hexText_draw random
  exact (((((((((hdraw 8 _).append hdash).append (hdraw 4 _)).append hversion).append
    (hdraw 3 _)).append hdash).append (hvariant _)).append (hdraw 3 _)).append hdash).append
      (hdraw 12 _)

end Uuid4
end ServerHttpLib

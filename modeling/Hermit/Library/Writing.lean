import Mathlib

/-! # Writings that can be read back

A writing of values as lists of numbers is readable when it determines the value
whatever follows it.  Readable writings are closed under lists.
-/

namespace Hermit

/-- A writing that can be read back in front of any continuation. -/
def Readable {α : Type*} (write : α → List ℕ) : Prop :=
  ∀ a b rest rest', write a ++ rest = write b ++ rest' → a = b ∧ rest = rest'

theorem Readable.injective {α : Type*} {write : α → List ℕ} (h : Readable write) :
    Function.Injective write := by
  intro a b hab
  exact (h a b [] [] (by rw [hab])).1

/-- The elements one after the other, each announced by a one, and a zero at the end. -/
def writeList {α : Type*} (write : α → List ℕ) : List α → List ℕ
  | [] => [0]
  | a :: as => 1 :: (write a ++ writeList write as)

variable {rest rest' : List ℕ}

theorem readable_writeList {α : Type*} {write : α → List ℕ} {as bs : List α}
    (h : ∀ a ∈ as, ∀ b rest rest', write a ++ rest = write b ++ rest' → a = b ∧ rest = rest')
    (heq : writeList write as ++ rest = writeList write bs ++ rest') : as = bs ∧ rest = rest' := by
  induction as generalizing bs with
  | nil =>
    cases bs with
    | nil => simpa [writeList] using heq
    | cons b bs => simp [writeList] at heq
  | cons a as ih =>
    cases bs with
    | nil => simp [writeList] at heq
    | cons b bs =>
      simp only [writeList, List.cons_append, List.append_assoc, List.cons.injEq, true_and] at heq
      obtain ⟨rfl, htail⟩ := h a (by simp) b _ _ heq
      obtain ⟨rfl, hrest⟩ := ih (fun c hc => h c (by simp [hc])) htail
      exact ⟨rfl, hrest⟩

def writeString (s : String) : List ℕ := writeList (fun c : Char => [c.toNat]) s.toList

theorem readable_writeString : Readable writeString := by
  intro s t rest rest' h
  have hchar : ∀ a ∈ s.toList, ∀ (b : Char) (rest rest' : List ℕ),
      [a.toNat] ++ rest = [b.toNat] ++ rest' → a = b ∧ rest = rest' := by
    intro a _ b rest rest' hab
    simpa [Char.toNat_inj] using hab
  obtain ⟨hlist, hrest⟩ := readable_writeList hchar h
  exact ⟨String.toList_injective hlist, hrest⟩

variable {α : Type*} {write : α → List ℕ} (h : Readable write)
include h

theorem Readable.eq {a b : α} : write a ++ rest = write b ++ rest' ↔ a = b ∧ rest = rest' := by
  constructor
  · exact h a b rest rest'
  · rintro ⟨rfl, rfl⟩
    rfl

theorem Readable.list : Readable (writeList write) :=
  fun _ _ _ _ => readable_writeList fun a _ => h a

end Hermit

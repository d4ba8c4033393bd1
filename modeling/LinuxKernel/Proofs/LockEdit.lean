import LinuxKernel.Locks
import Mathlib.Data.List.Pairwise
import Mathlib.Tactic.SplitIfs

/-!
# Placing a lock among the locks of one owner

The locks of an owner are sorted, disjoint, and no two that touch have the same type. A request
takes the place of the locks in the middle, and what sticks out of it stays as a lock of its own.
-/

namespace LinuxKernel.Fs

open List

variable {O : Type*}

def Covers (g : List (FileLock O)) (x : ℤ) (τ : LockType) : Prop :=
  ∃ f ∈ g, f.type = τ ∧ f.start ≤ x ∧ x ≤ f.stop

lemma covers_append {g h : List (FileLock O)} {x : ℤ} {τ : LockType} :
    Covers (g ++ h) x τ ↔ Covers g x τ ∨ Covers h x τ := by
  simp only [Covers, mem_append, or_and_right, exists_or]

/-- The first lock ends before the second one starts, and does not touch it if both have one type.
-/
def Before (a b : FileLock O) : Prop := a.stop < b.start ∧ (a.type = b.type → a.stop + 1 < b.start)

structure LockOk (f : FileLock O) : Prop where
  nonneg : 0 ≤ f.start
  le : f.start ≤ f.stop
  max : f.stop ≤ offsetMax
  held : f.type ≠ .unlck

structure RangeOk (f : FileLock O) : Prop where
  nonneg : 0 ≤ f.start
  le : f.start ≤ f.stop
  max : f.stop ≤ offsetMax

structure GroupOk (g : List (FileLock O)) : Prop where
  sorted : g.Pairwise Before
  locks : ∀ f ∈ g, LockOk f

lemma GroupOk.covers_unique {g : List (FileLock O)} (h : GroupOk g) {x : ℤ} {τ σ : LockType}
    (hτ : Covers g x τ) (hσ : Covers g x σ) : τ = σ := by
  obtain ⟨a, ha, rfl, ha1, ha2⟩ := hτ
  obtain ⟨b, hb, rfl, hb1, hb2⟩ := hσ
  by_contra hne
  have hdisj : g.Pairwise fun a b => a.stop < b.start ∨ b.stop < a.start :=
    h.sorted.imp fun hab => .inl hab.1
  have hsymm : Std.Symm fun a b : FileLock O => a.stop < b.start ∨ b.stop < a.start :=
    ⟨fun _ _ => Or.symm⟩
  have := hdisj.forall ha hb fun he => hne (by rw [he])
  omega

/-- The request of type `t` for the bytes from `s` to `e` becomes a lock from `s'` to `e'`, in the
place of the locks `mid` between `D` and `T`; `L` and `R` are what is left of them on its sides. -/
structure Edit (t : LockType) (s e s' e' : ℤ) (D mid T L N R : List (FileLock O)) : Prop where
  start_le : s' ≤ s
  le_stop : e ≤ e'
  before : ∀ d ∈ D, d.stop < s' ∧ (d.type = t → d.stop + 1 < s')
  after : ∀ f ∈ T, e' < f.start ∧ (f.type = t → e' + 1 < f.start)
  new : (t = .unlck ∧ N = [])
  ∨ (t ≠ .unlck ∧ ∃ n, N = [n] ∧ n.type = t ∧ n.start = s' ∧ n.stop = e')
  left : ∀ l ∈ L, ∃ f ∈ mid, f.type ≠ t ∧ f.start < s' ∧ s' ≤ f.stop ∧ l.type = f.type
    ∧ l.start = f.start ∧ l.stop = s' - 1
  right : ∀ r ∈ R, ∃ f ∈ mid, f.type ≠ t ∧ f.start ≤ e' ∧ e' < f.stop ∧ r.type = f.type
    ∧ r.stop = f.stop ∧ r.start = e' + 1
  left_one : L.Pairwise Before
  right_one : R.Pairwise Before
  low : ∀ x, s' ≤ x → x < s → Covers mid x t
  high : ∀ x, e < x → x ≤ e' → Covers mid x t
  kept_left : ∀ f ∈ mid, f.start < s' → ∃ l ∈ L,
  l.type = f.type ∧ l.start = f.start ∧ l.stop = s' - 1
  kept_right : ∀ f ∈ mid, e' < f.stop → ∃ r ∈ R, r.type = f.type ∧ r.stop = f.stop
    ∧ r.start = e' + 1

section

variable {t : LockType} {s e s' e' : ℤ} {D mid T L N R : List (FileLock O)}

section

variable (h : Edit t s e s' e' D mid T L N R)

include h

lemma Edit.covers_of_new {x : ℤ} {τ : LockType}
    (hc : Covers (D ++ L ++ N ++ R ++ T) x τ) :
    (s ≤ x ∧ x ≤ e) ∧ τ = t ∧ t ≠ .unlck ∨ ¬ (s ≤ x ∧ x ≤ e) ∧ Covers (D ++ mid ++ T) x τ := by
  have h1 := h.start_le
  have h2 := h.le_stop
  simp only [covers_append] at hc ⊢
  rcases hc with (((hD | hL) | hN) | hR) | hT
  · obtain ⟨d, hd, hτ, hd1, hd2⟩ := hD
    have := (h.before d hd).1
    exact .inr ⟨by omega, .inl (.inl ⟨d, hd, hτ, hd1, hd2⟩)⟩
  · obtain ⟨l, hl, rfl, hl1, hl2⟩ := hL
    obtain ⟨f, hf, -, hfs, hfe, hty, hst, hsp⟩ := h.left l hl
    exact .inr ⟨by omega, .inl (.inr ⟨f, hf, hty.symm, by omega, by omega⟩)⟩
  · obtain ⟨n, hn, rfl, hn1, hn2⟩ := hN
    rcases h.new with ⟨-, rfl⟩ | ⟨ht, n', rfl, hty, hst, hsp⟩
    · exact absurd hn not_mem_nil
    rw [mem_singleton.mp hn] at hn1 hn2 ⊢
    by_cases hlow : x < s
    · right
      rw [hty]
      exact ⟨by omega, .inl (.inr (h.low x (by omega) hlow))⟩
    by_cases hhigh : e < x
    · right
      rw [hty]
      exact ⟨by omega, .inl (.inr (h.high x hhigh (by omega)))⟩
    · exact .inl ⟨by omega, hty, ht⟩
  · obtain ⟨r, hr, rfl, hr1, hr2⟩ := hR
    obtain ⟨f, hf, -, hfs, hfe, hty, hsp, hst⟩ := h.right r hr
    exact .inr ⟨by omega, .inl (.inr ⟨f, hf, hty.symm, by omega, by omega⟩)⟩
  · obtain ⟨f, hf, hτ, hf1, hf2⟩ := hT
    have := (h.after f hf).1
    exact .inr ⟨by omega, .inr ⟨f, hf, hτ, hf1, hf2⟩⟩

lemma Edit.covers_new (hg : GroupOk (D ++ mid ++ T))
    {x : ℤ} {τ : LockType}
    (hc : (s ≤ x ∧ x ≤ e) ∧ τ = t ∧ t ≠ .unlck ∨ ¬ (s ≤ x ∧ x ≤ e) ∧ Covers (D ++ mid ++ T) x τ) :
    Covers (D ++ L ++ N ++ R ++ T) x τ := by
  have h1 := h.start_le
  have h2 := h.le_stop
  have hnew : s' ≤ x → x ≤ e' → τ = t → t ≠ .unlck → Covers N x τ := by
    rintro hx1 hx2 rfl hheld
    rcases h.new with ⟨hun, -⟩ | ⟨-, n, rfl, hty, hst, hsp⟩
    · exact absurd hun hheld
    · exact ⟨n, mem_singleton_self n, hty, by omega, by omega⟩
  -- a byte between the request and the lock it becomes has the type of the request
  have hmid : Covers mid x t → Covers (D ++ mid ++ T) x τ → τ = t ∧ t ≠ .unlck := by
    intro hm hc
    have hm' : Covers (D ++ mid ++ T) x t := by
      simp only [covers_append]
      exact .inl (.inr hm)
    obtain ⟨f, hf, hty, -⟩ := hm'
    exact ⟨hg.covers_unique hc (by simp only [covers_append]; exact .inl (.inr hm)),
      hty ▸ (hg.locks f hf).held⟩
  simp only [covers_append]
  rcases hc with ⟨⟨hx1, hx2⟩, hτ, hheld⟩ | ⟨hout, hold⟩
  · exact .inl (.inl (.inr (hnew (by omega) (by omega) hτ hheld)))
  have hold' := hold
  simp only [covers_append] at hold'
  rcases hold' with (hD | ⟨f, hf, rfl, hf1, hf2⟩) | hT
  · exact .inl (.inl (.inl (.inl hD)))
  · by_cases hlow : x < s'
    · obtain ⟨l, hl, hty, hst, hsp⟩ := h.kept_left f hf (by omega)
      exact .inl (.inl (.inl (.inr ⟨l, hl, hty, by omega, by omega⟩)))
    · by_cases hhigh : e' < x
      · obtain ⟨r, hr, hty, hsp, hst⟩ := h.kept_right f hf (by omega)
        exact .inl (.inr ⟨r, hr, hty, by omega, by omega⟩)
      · have hm : Covers mid x t := by
          by_cases hxs : x < s
          · exact h.low x (by omega) hxs
          · exact h.high x (by omega) (by omega)
        obtain ⟨hτ, hheld⟩ := hmid hm hold
        exact .inl (.inl (.inr (hnew (by omega) (by omega) hτ hheld)))
  · exact .inr hT

lemma Edit.locks (hg : GroupOk (D ++ mid ++ T)) (hs : 0 ≤ s)
    (hse : s ≤ e) (he : e ≤ offsetMax) : ∀ f ∈ D ++ L ++ N ++ R ++ T, LockOk f := by
  have h1 := h.start_le
  have h2 := h.le_stop
  have hmem : ∀ f, f ∈ mid → LockOk f := fun f hf =>
    hg.locks f (mem_append_left _ (mem_append_right _ hf))
  have hs' : 0 ≤ s' := by
    by_cases hlt : s' < s
    · obtain ⟨f, hf, -, hf1, -⟩ := h.low s' le_rfl hlt
      have := (hmem f hf).nonneg
      omega
    · omega
  have he' : e' ≤ offsetMax := by
    by_cases hlt : e < e'
    · obtain ⟨f, hf, -, -, hf2⟩ := h.high e' hlt le_rfl
      have := (hmem f hf).max
      omega
    · omega
  intro f hf
  simp only [mem_append] at hf
  rcases hf with (((hD | hL) | hN) | hR) | hT
  · exact hg.locks f (mem_append_left _ (mem_append_left _ hD))
  · obtain ⟨l, hl, -, hls, hle, hty, hst, hsp⟩ := h.left f hL
    have hok := hmem l hl
    have := hok.nonneg
    have := hok.max
    exact ⟨by omega, by omega, by omega, hty ▸ hok.held⟩
  · rcases h.new with ⟨-, rfl⟩ | ⟨ht, n, rfl, hty, hst, hsp⟩
    · exact absurd hN not_mem_nil
    · rw [mem_singleton.mp hN]
      exact ⟨by omega, by omega, by omega, hty ▸ ht⟩
  · obtain ⟨r, hr, -, hrs, hre, hty, hsp, hst⟩ := h.right f hR
    have hok := hmem r hr
    have := hok.nonneg
    have := hok.max
    exact ⟨by omega, by omega, by omega, hty ▸ hok.held⟩
  · exact hg.locks f (mem_append_right _ hT)

lemma Edit.sorted (hg : GroupOk (D ++ mid ++ T))
    (hse : s ≤ e) : (D ++ L ++ N ++ R ++ T).Pairwise Before := by
  have h1 := h.start_le
  have h2 := h.le_stop
  obtain ⟨hDM, hT, hDMT⟩ := pairwise_append.mp hg.sorted
  obtain ⟨hD, -, hDm⟩ := pairwise_append.mp hDM
  have hN : N.Pairwise Before := by
    rcases h.new with ⟨-, rfl⟩ | ⟨-, n, rfl, -⟩
    · exact List.Pairwise.nil
    · exact pairwise_singleton _ _
  have hNeq : ∀ n ∈ N, n.type = t ∧ n.start = s' ∧ n.stop = e' := by
    intro n hn
    rcases h.new with ⟨-, rfl⟩ | ⟨-, n', rfl, hty, hst, hsp⟩
    · exact absurd hn not_mem_nil
    · rw [mem_singleton.mp hn]
      exact ⟨hty, hst, hsp⟩
  have hDL : ∀ d ∈ D, ∀ l ∈ L, Before d l := by
    intro d hd l hl
    obtain ⟨f, hf, -, -, -, hty, hst, -⟩ := h.left l hl
    have hb := hDm d hd f hf
    rw [Before, hty, hst]
    exact hb
  have hDN : ∀ d ∈ D, ∀ n ∈ N, Before d n := by
    intro d hd n hn
    obtain ⟨hty, hst, -⟩ := hNeq n hn
    rw [Before, hty, hst]
    exact h.before d hd
  have hLN : ∀ l ∈ L, ∀ n ∈ N, Before l n := by
    intro l hl n hn
    obtain ⟨hty, hst, -⟩ := hNeq n hn
    obtain ⟨f, hf, hne, -, -, hlty, -, hsp⟩ := h.left l hl
    exact ⟨by omega, fun he => absurd (hlty ▸ he.trans hty) hne⟩
  -- what is on the right of the request starts behind its end
  have hend : ∀ a : FileLock O, a.stop < s' → ∀ b : FileLock O, e' < b.start → Before a b :=
    fun a ha b hb => ⟨by omega, fun _ => by omega⟩
  have hDs : ∀ d ∈ D, d.stop < s' := fun d hd => (h.before d hd).1
  have hLs : ∀ l ∈ L, l.stop < s' := fun l hl => by
    obtain ⟨f, -, -, -, -, -, -, hsp⟩ := h.left l hl
    omega
  have hRs : ∀ r ∈ R, e' < r.start := fun r hr => by
    obtain ⟨f, -, -, -, -, -, -, hst⟩ := h.right r hr
    omega
  have hTs : ∀ f ∈ T, e' < f.start := fun f hf => (h.after f hf).1
  have hNR : ∀ n ∈ N, ∀ r ∈ R, Before n r := by
    intro n hn r hr
    obtain ⟨hty, -, hsp⟩ := hNeq n hn
    obtain ⟨f, hf, hne, -, -, hrty, -, hst⟩ := h.right r hr
    exact ⟨by omega, fun he => absurd (hrty.symm.trans (he.symm.trans hty)) hne⟩
  have hNT : ∀ n ∈ N, ∀ f ∈ T, Before n f := by
    intro n hn f hf
    obtain ⟨hty, -, hsp⟩ := hNeq n hn
    rw [Before, hty, hsp]
    exact ⟨(h.after f hf).1, fun he => (h.after f hf).2 he.symm⟩
  have hRT : ∀ r ∈ R, ∀ f ∈ T, Before r f := by
    intro r hr f hf
    obtain ⟨g, hgm, -, -, -, hty, hsp, -⟩ := h.right r hr
    have hb := hDMT g (mem_append_right _ hgm) f hf
    rw [Before, hty, hsp]
    exact hb
  have hDT : ∀ d ∈ D, ∀ f ∈ T, Before d f := fun d hd f hf => hDMT d (mem_append_left _ hd) f hf
  simp only [pairwise_append, mem_append]
  refine ⟨⟨⟨⟨hD, h.left_one, hDL⟩, hN, ?_⟩, h.right_one, ?_⟩, hT, ?_⟩
  · rintro a (ha | ha) n hn
    · exact hDN a ha n hn
    · exact hLN a ha n hn
  · rintro a ((ha | ha) | ha) r hr
    · exact hend a (hDs a ha) r (hRs r hr)
    · exact hend a (hLs a ha) r (hRs r hr)
    · exact hNR a ha r hr
  · rintro a (((ha | ha) | ha) | ha) f hf
    · exact hDT a ha f hf
    · exact hend a (hLs a ha) f (hTs f hf)
    · exact hNT a ha f hf
    · exact hRT a ha f hf

lemma Edit.groupOk (hg : GroupOk (D ++ mid ++ T))
    (hs : 0 ≤ s)
    (hse : s ≤ e) (he : e ≤ offsetMax) :
    GroupOk (D ++ L ++ N ++ R ++ T) ∧ ∀ x τ, Covers (D ++ L ++ N ++ R ++ T) x τ ↔
      (s ≤ x ∧ x ≤ e) ∧ τ = t ∧ t ≠ .unlck ∨ ¬ (s ≤ x ∧ x ≤ e) ∧ Covers (D ++ mid ++ T) x τ :=
  ⟨⟨h.sorted hg hse, h.locks hg hs hse he⟩, fun _ _ => ⟨h.covers_of_new, h.covers_new hg⟩⟩

end

end

end LinuxKernel.Fs

import AcademyLab.Chat.Server

/-!
# The two ways of watching descriptors

`server_select.c` keeps `allset`, `rset` and `maxfd`; `server_poll.c` keeps the
array `pfds`, one entry for each slot and a last one for the listener. Of
`events` and `revents` only the bit `POLLIN` is ever set or tested.
-/
namespace AcademyLab.Chat

/-- `fd_set` -/
structure FdSet where
  members : Finset ℤ
  range : ∀ fd ∈ members, 0 ≤ fd ∧ fd < fdSetSize

instance : Membership ℤ FdSet := ⟨fun set fd => fd ∈ set.members⟩

instance (fd : ℤ) (set : FdSet) : Decidable (fd ∈ set) :=
  inferInstanceAs (Decidable (fd ∈ set.members))

namespace FdSet

/-- `FD_ZERO` -/
def zero : FdSet := ⟨∅, by simp⟩

/-- `FD_SET(fd, &set)`; what it does to a descriptor outside the range of the
set is undefined. -/
def set (fd : ℤ) (s : FdSet) : FdSet :=
  if h : 0 ≤ fd ∧ fd < fdSetSize then
    ⟨insert fd s.members, by
      intro x hx
      rcases Finset.mem_insert.mp hx with rfl | hx
      · exact h
      · exact s.range x hx⟩
  else s

/-- `FD_CLR(fd, &set)` -/
def clr (fd : ℤ) (s : FdSet) : FdSet :=
  ⟨s.members.erase fd, fun x hx => s.range x (Finset.mem_of_mem_erase hx)⟩

@[simp] theorem notMem_zero (fd : ℤ) : fd ∉ zero := Finset.notMem_empty fd

theorem mem_set {x fd : ℤ} {s : FdSet} (h : 0 ≤ fd ∧ fd < fdSetSize) :
    x ∈ s.set fd ↔ x = fd ∨ x ∈ s := by
  rw [set, dif_pos h]
  exact Finset.mem_insert

theorem mem_clr {x fd : ℤ} {s : FdSet} : x ∈ s.clr fd ↔ x ≠ fd ∧ x ∈ s := Finset.mem_erase

end FdSet

/-- The globals `allset`, `rset` and `maxfd`. -/
structure FdSets where
  allset : FdSet
  rset : FdSet
  maxfd : ℤ

namespace FdSets

/-- `rset = allset; select(maxfd + 1, &rset, NULL, NULL, NULL)` -/
def select (f : FdSets) (ready : Finset ℤ) : FdSets :=
  { f with rset :=
      ⟨f.allset.members.filter fun fd => fd < f.maxfd + 1 ∧ fd ∈ ready,
        fun fd hfd => f.allset.range fd (Finset.mem_of_mem_filter fd hfd)⟩ }

/-- `FD_SET(client.fd, &allset); if(client.fd > maxfd) maxfd = client.fd;` -/
def add (f : FdSets) (fd : ℤ) : FdSets :=
  { f with allset := f.allset.set fd, maxfd := if fd > f.maxfd then fd else f.maxfd }

/-- The "FD set init" of `server_select.c`; `rset` is a zeroed global. -/
def init (listenfd : ℕ) : FdSets :=
  { allset := FdSet.zero.set listenfd, rset := FdSet.zero, maxfd := listenfd }

/-- `select()` reports only watched descriptors. -/
theorem mem_of_mem_select {f : FdSets} {ready : Finset ℤ} {fd : ℤ}
    (h : fd ∈ (f.select ready).rset) : fd ∈ f.allset := Finset.mem_of_mem_filter fd h

end FdSets

/-- The set is exactly the listener and the descriptors of the occupied slots. -/
def Covers (set : FdSet) (listenfd : ℤ) (t : Slot → ℤ) : Prop :=
  ∀ fd, fd ∈ set ↔ fd = listenfd ∨ ∃ i, 0 ≤ t i ∧ t i = fd

namespace Covers
variable {set : FdSet} {listenfd fd : ℤ} {t : Slot → ℤ} {i : Slot}

/-- At program start only the listener is watched. -/
theorem init {listenfd : ℕ} (hl : (listenfd : ℤ) < fdSetSize) (ht : ∀ i, t i < 0) :
    Covers (FdSets.init listenfd).allset listenfd t := by
  intro fd
  rw [FdSets.init, FdSet.mem_set ⟨Int.natCast_nonneg _, hl⟩]
  constructor
  · rintro (rfl | hfd)
    · exact .inl rfl
    · exact absurd hfd (FdSet.notMem_zero fd)
  · rintro (rfl | ⟨i, hi, -⟩)
    · exact .inl rfl
    · exact absurd (ht i) (not_lt.mpr hi)

theorem add (h : Covers set listenfd t) (hi : t i < 0) (hfd : 0 ≤ fd ∧ fd < fdSetSize) :
    Covers (set.set fd) listenfd (Function.update t i fd) := by
  intro x
  rw [FdSet.mem_set hfd, h x]
  constructor
  · rintro (rfl | rfl | ⟨j, hj, rfl⟩)
    · exact .inr ⟨i, by simpa using hfd.1, by simp⟩
    · exact .inl rfl
    · have hji : j ≠ i := by
        rintro rfl
        exact absurd hj (not_le.mpr hi)
      exact .inr ⟨j, by simpa [hji] using hj⟩
  · rintro (rfl | ⟨j, hj, rfl⟩)
    · exact .inr (.inl rfl)
    · by_cases hji : j = i
      · subst hji
        simp
      · rw [Function.update_of_ne hji] at hj ⊢
        exact .inr (.inr ⟨j, hj, rfl⟩)

theorem remove (h : Covers set listenfd t) (hl : t i ≠ listenfd)
    (hd : ∀ j, 0 ≤ t j → t j = t i → j = i) :
    Covers (set.clr (t i)) listenfd (Function.update t i (-1)) := by
  intro x
  rw [FdSet.mem_clr, h x]
  constructor
  · rintro ⟨hx, rfl | ⟨j, hj, rfl⟩⟩
    · exact .inl rfl
    · have hji : j ≠ i := by
        rintro rfl
        exact hx rfl
      exact .inr ⟨j, by simpa [hji] using hj⟩
  · rintro (rfl | ⟨j, hj, rfl⟩)
    · exact ⟨hl.symm, .inl rfl⟩
    · have hji := ne_of_update_nonneg hj
      rw [Function.update_of_ne hji] at hj ⊢
      exact ⟨fun he => hji (hd j hj he), .inr ⟨j, hj, rfl⟩⟩

end Covers

def selectWatch : Watcher FdSets where
  wait f ready := f.select ready
  reported f := f.rset.members
  listenerReady f listenfd := decide (listenfd ∈ f.rset)
  clientReady f _ fd := decide (fd ∈ f.rset)
  add f _ fd := (f.add fd, [fd])
  remove f _ fd := ({ f with allset := f.allset.clr fd }, [fd])

/-- `struct pollfd`, with the bit `POLLIN` of its two masks. -/
structure Pollfd where
  fd : ℤ
  events : Bool
  revents : Bool
  deriving DecidableEq

/-- The array `pfds`. -/
abbrev Pollfds := Fin (maxClients + 1) → Pollfd

/-- `pfds[MAX_CLIENTS]` -/
def listenEntry : Fin (maxClients + 1) := Fin.last maxClients

/-- `poll(pfds, MAX_CLIENTS + 1, -1)`: an entry with a negative descriptor is
ignored and gets `revents = 0`. -/
def poll (pfds : Pollfds) (ready : Finset ℤ) : Pollfds := fun k =>
  { pfds k with
    revents := decide (0 ≤ (pfds k).fd) && (pfds k).events && decide ((pfds k).fd ∈ ready) }

def pollWatch : Watcher Pollfds where
  wait pfds ready := poll pfds ready
  reported pfds := (Finset.univ.filter fun k => (pfds k).revents = true).image fun k => (pfds k).fd
  listenerReady pfds _ := (pfds listenEntry).revents
  clientReady pfds i _ := (pfds i.castSucc).revents
  add pfds i fd :=
    (Function.update pfds i.castSucc { pfds i.castSucc with fd := fd, events := true }, [])
  remove pfds i _ := (Function.update pfds i.castSucc { pfds i.castSucc with fd := -1 }, [])

/-- The "FD set init" of `server_poll.c`: only the entry of the listener of the
local array is set. -/
def pollInit (listenfd : ℕ) (mem : Pollfds) : Pollfds :=
  Function.update mem listenEntry { mem listenEntry with fd := listenfd, events := true }

theorem castSucc_ne_listenEntry (i : Slot) : i.castSucc ≠ listenEntry := Fin.castSucc_ne_last i

@[simp] theorem pollInit_castSucc (listenfd : ℕ) (mem : Pollfds) (i : Slot) :
    pollInit listenfd mem i.castSucc = mem i.castSucc :=
  Function.update_of_ne (castSucc_ne_listenEntry i) _ _

/-- The entries of the slots hold the given descriptors. -/
def Follows (pfds : Pollfds) (t : Slot → ℤ) : Prop := ∀ i : Slot, (pfds i.castSucc).fd = t i

theorem Follows.update {pfds : Pollfds} {t : Slot → ℤ} (h : Follows pfds t) (i : Slot)
    (p : Pollfd) :
    Follows (Function.update pfds i.castSucc p) (Function.update t i p.fd) := by
  intro j
  by_cases hji : j = i
  · subst hji
    simp
  · have hne : j.castSucc ≠ i.castSucc := fun he => hji (Fin.castSucc_injective _ he)
    rw [Function.update_of_ne hji, Function.update_of_ne hne]
    exact h j

/-- `revents` is not touched when the descriptor of an entry is written. -/
theorem revents_update (pfds : Pollfds) (i j : Slot) (fd : ℤ) (events : Bool) :
    (Function.update pfds i.castSucc ⟨fd, events, (pfds i.castSucc).revents⟩ j.castSucc).revents =
      (pfds j.castSucc).revents := by
  by_cases hji : j = i
  · subst hji
    rw [Function.update_self]
  · rw [Function.update_of_ne fun he => hji (Fin.castSucc_injective _ he)]

end AcademyLab.Chat

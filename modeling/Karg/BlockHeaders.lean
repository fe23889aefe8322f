import Karg.HeapInvariant

namespace Karg.BlockHeaders

open LinkStore CircularList ListNode ByteMemory KernelMemory PageAlloc Kalloc Tiling HeapModel

structure Header (m : Memory) (b : Block) : Prop where
  allocated : Kalloc.allocated m b.addr = b.allocated
  size : Kalloc.size m b.addr = b.size

def HeadersApart (b c : Block) : Prop := b.addr + headerSize ≤ c.addr ∨ c.addr + headerSize ≤ b.addr

structure Headers (head : Nat) (m : Memory) (bs : List Block) : Prop where
  ring : Ring m head (bs.map (·.addr))
  header (b : Block) : b ∈ bs → Header m b
  apart : bs.Pairwise HeadersApart
  off (b : Block) : b ∈ bs → head + 16 ≤ b.addr ∨ b.addr + headerSize ≤ head

def footprint (head : Nat) (bs : List Block) : Set Nat :=
  { x | x ∈ place head 16 ∨ ∃ b ∈ bs, x ∈ place b.addr headerSize }

theorem HeadersApart.symm {b c : Block} (h : HeadersApart b c) : HeadersApart c b := Or.symm h

instance : Std.Symm HeadersApart := ⟨fun _ _ => HeadersApart.symm⟩

variable {head : Nat} {m m' : Memory} {bs l r : List Block} {b c : Block} {s : Set Nat}

theorem nodes_subset (h : ∀ b ∈ l, b ∈ bs) : nodes (head :: l.map (·.addr)) ⊆ footprint head bs := by
  rintro x ⟨y, hy, hx⟩
  rcases List.mem_cons.mp hy with rfl | hy
  · exact .inl hx
  · obtain ⟨b, hb, rfl⟩ := List.mem_map.mp hy
    refine .inr ⟨b, h b hb, ?_⟩
    rw [mem_place] at hx ⊢
    rw [headerSize]
    omega

theorem footprint_mono (h : ∀ b ∈ l, ∃ c ∈ bs, c.addr = b.addr) : footprint head l ⊆ footprint head bs := by
  rintro x (hx | ⟨b, hb, hx⟩)
  · exact .inl hx
  · obtain ⟨c, hc, he⟩ := h b hb
    exact .inr ⟨c, hc, he ▸ hx⟩

theorem footprint_update (hc : c.addr = b.addr) :
    footprint head (l ++ c :: r) ⊆ footprint head (l ++ b :: r) := by
  apply footprint_mono
  intro d hd
  rcases mem_middle.mp hd with rfl | hd
  · exact ⟨b, mem_middle.mpr (.inl rfl), hc.symm⟩
  · exact ⟨d, mem_middle.mpr (.inr hd), rfl⟩

theorem fields_disjoint (hp : bs.Pairwise HeadersApart)
    (ho : ∀ b ∈ bs, head + 16 ≤ b.addr ∨ b.addr + headerSize ≤ head) (hb : b ∈ bs) :
    Disjoint (place (b.addr + 16) 16) (nodes (head :: bs.map (·.addr))) := by
  apply disjoint_nodes
  intro x hx
  rcases List.mem_cons.mp hx with rfl | hx
  · have hob := ho b hb
    rw [headerSize] at hob
    omega
  · obtain ⟨c, hc, rfl⟩ := List.mem_map.mp hx
    by_cases hbc : b = c
    · subst hbc
      omega
    · have hap := hp.forall hb hc hbc
      rw [HeadersApart, headerSize] at hap
      omega

theorem Header.frame (h : Header m b) (hm : Only s m m') (hs : Disjoint (place (b.addr + 16) 16) s) : Header m' b := by
  constructor
  · rw [Kalloc.allocated, hm.load_eq (hs.mono_left _)]
    · exact h.allocated
    · exact place_subset_place (by omega) (by omega)
  · rw [Kalloc.size, hm.load_eq (hs.mono_left _)]
    · exact h.size
    · exact place_subset_place (by omega) (by omega)

theorem Headers.frame (h : Headers head m bs) (hm : Only s m m') (hs : Disjoint (footprint head bs) s) :
    Headers head m' bs := by
  refine ⟨h.ring.frame hm (hs.mono_left (nodes_subset fun _ hb => hb)), fun b hb => ?_, h.apart, h.off⟩
  refine (h.header b hb).frame hm (hs.mono_left fun x hx => .inr ⟨b, hb, ?_⟩)
  rw [mem_place] at hx ⊢
  rw [headerSize]
  omega

theorem Headers.around (h : Headers head m (l ++ b :: r)) : ∀ c ∈ l ++ r, HeadersApart b c := by
  have hp := h.apart
  rw [List.pairwise_append, List.pairwise_cons] at hp
  intro c hc
  rcases List.mem_append.mp hc with hc | hc
  · exact (hp.2.2 c hc b List.mem_cons_self).symm
  · exact hp.2.1.1 c hc

theorem Headers.setFields (h : Headers head m (l ++ b :: r)) (hm : Only (place (b.addr + 16) 16) m m')
    (hc : Header m' c) (hbc : c.addr = b.addr) : Headers head m' (l ++ c :: r) := by
  have haddr : (l ++ c :: r).map (·.addr) = (l ++ b :: r).map (·.addr) := by simp [hbc]
  have hother : ∀ d ∈ l ++ r, Header m' d := by
    intro d hd
    have hap := h.around d hd
    refine (h.header d (mem_middle.mpr (.inr hd))).frame hm (disjoint_place ?_)
    rw [HeadersApart, headerSize] at hap
    omega
  have hold : ∀ d ∈ l ++ c :: r, ∃ d' ∈ l ++ b :: r, d'.addr = d.addr := by
    intro d hd
    have hin : d.addr ∈ (l ++ c :: r).map (·.addr) := List.mem_map_of_mem hd
    rw [haddr] at hin
    exact List.mem_map.mp hin
  refine ⟨?_, fun d hd => ?_, ?_, fun d hd => ?_⟩
  · rw [haddr]
    exact h.ring.frame hm (fields_disjoint h.apart h.off (by simp)).symm
  · rcases mem_middle.mp hd with rfl | hd
    · exact hc
    · exact hother d hd
  · have hp := List.pairwise_append.mp h.apart
    have hr := List.pairwise_cons.mp hp.2.1
    simp only [HeadersApart, ← hbc] at hp hr
    refine List.pairwise_append.mpr ⟨hp.1, List.pairwise_cons.mpr hr, ?_⟩
    intro x hx y hy
    rcases List.mem_cons.mp hy with rfl | hy
    · have hxb := hp.2.2 x hx b List.mem_cons_self
      rwa [← hbc] at hxb
    · exact hp.2.2 x hx y (List.mem_cons_of_mem b hy)
  · obtain ⟨d', hd', he⟩ := hold d hd
    rw [← he]
    exact h.off d' hd'

theorem setAllocated_only (m : Memory) (block : Nat) (val : Bool) :
    Only (place (block + 16) 16) m (setAllocated m block val) := by
  apply (store_only m (block + 16) 1 _).mono
  exact place_subset_place (by omega) (by omega)

theorem setSize_only (m : Memory) (block val : Nat) : Only (place (block + 16) 16) m (setSize m block val) := by
  apply (store_only m (block + 24) 8 _).mono
  exact place_subset_place (by omega) (by omega)

theorem allocated_setAllocated (m : Memory) (block : Nat) (val : Bool) :
    allocated (setAllocated m block val) block = val := by
  rw [allocated, setAllocated, load_store]
  cases val <;> rfl

theorem size_setAllocated (m : Memory) (block : Nat) (val : Bool) : size (setAllocated m block val) block = size m block :=
  load_store_apart m _ (by omega)

theorem size_setSize (m : Memory) (block : Nat) {val : Nat} (h : val < 2 ^ 64) : size (setSize m block val) block = val :=
  load_store_of_lt m _ h

theorem allocated_setSize (m : Memory) (block val : Nat) :
    allocated (setSize m block val) block = allocated m block := by
  rw [allocated, setSize, load_store_apart _ _ (by omega)]
  rfl

theorem Headers.setAllocated (h : Headers head m (l ++ b :: r)) (val : Bool) :
    Headers head (setAllocated m b.addr val) (l ++ { b with allocated := val } :: r) := by
  refine h.setFields (setAllocated_only m b.addr val) ⟨allocated_setAllocated m b.addr val, ?_⟩ rfl
  exact (size_setAllocated m b.addr val).trans (h.header b (by simp)).size

theorem Headers.setSize (h : Headers head m (l ++ b :: r)) (val : Nat) (hv : val < 2 ^ 64) :
    Headers head (setSize m b.addr val) (l ++ ⟨⟨b.addr, val⟩, b.allocated⟩ :: r) := by
  refine h.setFields (setSize_only m b.addr val) ⟨?_, size_setSize m b.addr hv⟩ rfl
  exact (allocated_setSize m b.addr val).trans (h.header b (by simp)).allocated

theorem Headers.insert (h : Headers head m (l ++ r)) (hc : Header m c) (hap : ∀ d ∈ l ++ r, HeadersApart c d)
    (hoff : head + 16 ≤ c.addr ∨ c.addr + headerSize ≤ head) (hv : c.addr < 2 ^ 64) :
    Headers head (listInsert m ((r.map (·.addr)).headD head) c.addr) (l ++ c :: r) ∧
      Only (footprint head (l ++ c :: r)) m (listInsert m ((r.map (·.addr)).headD head) c.addr) := by
  have hr := h.ring
  rw [List.map_append] at hr
  have hx : ∀ y ∈ head :: (l.map (·.addr) ++ r.map (·.addr)), Apart Memory c.addr y := by
    intro y hy
    rcases List.mem_cons.mp hy with rfl | hy
    · show c.addr + 16 ≤ y ∨ y + 16 ≤ c.addr
      rw [headerSize] at hoff
      omega
    · rw [← List.map_append] at hy
      obtain ⟨d, hd, rfl⟩ := List.mem_map.mp hy
      have had := hap d hd
      rw [HeadersApart, headerSize] at had
      show c.addr + 16 ≤ d.addr ∨ d.addr + 16 ≤ c.addr
      omega
  obtain ⟨hring, hm⟩ := hr.insert hx hv
  have hlinks : Only (nodes (head :: (c :: (l ++ r)).map (·.addr))) m
      (listInsert m ((r.map (·.addr)).headD head) c.addr) := by
    apply hm.mono
    apply nodes_mono
    intro y hy
    rw [List.map_cons, List.map_append]
    exact (List.Perm.swap head c.addr _).mem_iff.mp hy
  have hperm : (l ++ c :: r).Perm (c :: (l ++ r)) := List.perm_middle
  have hall : ∀ d ∈ c :: (l ++ r), head + 16 ≤ d.addr ∨ d.addr + headerSize ≤ head :=
    List.forall_mem_cons.mpr ⟨hoff, h.off⟩
  have hpair : (c :: (l ++ r)).Pairwise HeadersApart := List.pairwise_cons.mpr ⟨hap, h.apart⟩
  refine ⟨⟨?_, fun d hd => ?_, ?_, fun d hd => hall d (hperm.mem_iff.mp hd)⟩, ?_⟩
  · rw [List.map_append, List.map_cons]
    exact hring
  · have hd' := hperm.mem_iff.mp hd
    have hold : Header m d := by
      rcases mem_middle.mp hd with rfl | hd
      · exact hc
      · exact h.header d hd
    exact hold.frame hlinks (fields_disjoint hpair hall hd')
  · exact (hperm.pairwise_iff HeadersApart.symm).mpr hpair
  · apply hlinks.mono
    apply nodes_subset
    exact fun d hd => hperm.mem_iff.mpr hd

theorem Headers.remove (h : Headers head m (l ++ c :: r)) : Headers head (listRemove m c.addr) (l ++ r) ∧
    Only (footprint head (l ++ c :: r)) m (listRemove m c.addr) := by
  have hr := h.ring
  rw [List.map_append, List.map_cons] at hr
  obtain ⟨hring, hm⟩ := hr.remove
  rw [← List.map_append] at hring hm
  have hsub : ∀ d ∈ l ++ r, d ∈ l ++ c :: r := fun d hd => mem_middle.mpr (.inr hd)
  have hpair : (l ++ r).Pairwise HeadersApart :=
    h.apart.sublist (List.Sublist.append_left (List.sublist_cons_self c r) l)
  refine ⟨⟨hring, fun d hd => ?_, hpair, fun d hd => h.off d (hsub d hd)⟩, hm.mono (nodes_subset hsub)⟩
  exact (h.header d (hsub d hd)).frame hm (fields_disjoint hpair (fun e he => h.off e (hsub e he)) hd)

theorem Headers.next_eq (h : Headers head m (l ++ b :: r)) : next m b.addr = (r.map (·.addr)).headD head := by
  have hr := h.ring.circular
  rw [List.map_append, List.map_cons] at hr
  exact circular_next_mem hr

theorem Headers.prev_eq (h : Headers head m (l ++ b :: r)) : prev m b.addr = (l.map (·.addr)).getLastD head := by
  have hr := h.ring.circular
  rw [List.map_append, List.map_cons] at hr
  exact circular_prev_mem hr

theorem Headers.isFront_eq (h : Headers head m (l ++ b :: r)) : listIsFront m head b.addr = l.isEmpty := by
  have hne : head ≠ b.addr := by
    have ho := h.off b (mem_middle.mpr (.inl rfl))
    rw [headerSize] at ho
    omega
  rw [listIsFront, circular_next h.ring.circular]
  cases l with
  | nil => simp
  | cons c l =>
      have hap := h.around c (by simp)
      have hcb : c.addr ≠ b.addr := by
        rw [HeadersApart, headerSize] at hap
        omega
      simpa using hcb

theorem Headers.isBack_eq (h : Headers head m (l ++ b :: r)) : listIsBack m head b.addr = r.isEmpty := by
  rw [listIsBack, circular_prev h.ring.circular]
  rcases List.eq_nil_or_concat' r with rfl | ⟨r, c, rfl⟩
  · simp
  · have hap := h.around c (by simp)
    have hcb : c.addr ≠ b.addr := by
      rw [HeadersApart, headerSize] at hap
      omega
    have hlast : ((l ++ b :: (r ++ [c])).map (·.addr)).getLastD head = c.addr := by
      rw [← List.cons_append, ← List.append_assoc, List.map_append, List.map_singleton]
      exact List.getLastD_concat ..
    rw [hlast, decide_eq_false hcb]
    cases r <;> rfl

theorem fields_subset (hb : b ∈ bs) : place (b.addr + 16) 16 ⊆ footprint head bs := by
  intro x hx
  refine .inr ⟨b, hb, ?_⟩
  rw [mem_place] at hx ⊢
  rw [headerSize]
  omega

end Karg.BlockHeaders

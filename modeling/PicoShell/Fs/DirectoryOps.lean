import PicoShell.Fs.Directory

namespace PicoShell.Fs

variable {d d' : Disk} {S : ℕ → Prop} {i k : ℕ}

def FirstSlot (es : List Dirent) (p : Dirent → Bool) (k : ℕ) : Prop :=
  (∃ e, es[k]? = some e ∧ p e = true) ∧ ∀ l < k, ∀ e, es[l]? = some e → p e = false

theorem FirstSlot.unique {es : List Dirent} {p : Dirent → Bool} {k l : ℕ} (hk : FirstSlot es p k)
    (hl : FirstSlot es p l) : k = l := by
  obtain ⟨⟨e, he, hpe⟩, hbefore⟩ := hk
  obtain ⟨⟨e', he', hpe'⟩, hbefore'⟩ := hl
  rcases lt_trichotomy k l with hlt | heq | hgt
  · rw [hbefore' k hlt e he] at hpe
    contradiction
  · exact heq
  · rw [hbefore l hgt e' he'] at hpe'
    contradiction

theorem scan_entries (d : Disk) (x : Inode) (p : Dirent → Bool) :
    (∃ k, FirstSlot (d.entries x) p k ∧ 64 * k + 64 ≤ x.len ∧
      (List.range (x.len / 64)).find? (fun k => p (d.entry x k)) = some k) ∨
    ((∀ e ∈ d.entries x, p e = false) ∧
      (List.range (x.len / 64)).find? (fun k => p (d.entry x k)) = none) := by
  cases hf : (List.range (x.len / 64)).find? (fun k => p (d.entry x k)) with
  | none =>
    refine .inr ⟨?_, rfl⟩
    intro e he
    obtain ⟨k, hk, rfl⟩ := List.mem_map.mp he
    have := List.find?_eq_none.mp hf k hk
    simpa using this
  | some k =>
    obtain ⟨hpk, hk, hbefore⟩ := List.find?_range_eq_some.mp hf
    have hk := List.mem_range.mp hk
    refine .inl ⟨k, ⟨⟨_, Disk.getElem?_entries d x hk, hpk⟩, ?_⟩, by omega, rfl⟩
    intro l hl e he
    rw [Disk.getElem?_entries d x (by omega), Option.some.injEq] at he
    subst he
    simpa using hbefore l hl

section Add

variable (newDirent : Dirent) (stack : Bytes 64)

/-- The four outcomes of `dir_add`: the name is taken; the first invalid slot receives the
memory at the argument; there is no room; the entry goes behind the last one. -/
theorem dirAdd_cases (hd : WellFormedOn d S) (hi : S i) (hdir : (d.inode i).type = .directoryT)
    (hwhole : 64 ∣ (d.inode i).len) :
    (lookupEntry (d.entries (d.inode i)) newDirent.key ≠ -1 ∧
      dirAdd d i newDirent stack = .ok (-1, d)) ∨
    (lookupEntry (d.entries (d.inode i)) newDirent.key = -1 ∧
      ∃ k d', FirstSlot (d.entries (d.inode i)) (fun e => !e.valid) k ∧
        64 * k + 64 ≤ (d.inode i).len ∧ Written d d' S i (64 * k) 64 stack.get ∧
        dirAdd d i newDirent stack = .ok (0, d')) ∨
    (lookupEntry (d.entries (d.inode i)) newDirent.key = -1 ∧
      (∀ e ∈ d.entries (d.inode i), e.valid = true) ∧
      ((d.inode i).len = 12288 ∨ 1024 ∣ (d.inode i).len ∧ ∀ b < 120, d.dataBit b = true) ∧
      dirAdd d i newDirent stack = .ok (-1, d)) ∨
    (lookupEntry (d.entries (d.inode i)) newDirent.key = -1 ∧
      (∀ e ∈ d.entries (d.inode i), e.valid = true) ∧
      ((d.inode i).len < 12288 ∧ (¬ 1024 ∣ (d.inode i).len ∨ ∃ b < 120, d.dataBit b = false)) ∧
      ∃ d', Marks d d' (1024 ∣ (d.inode i).len) ∧
        Written d d' S i (64 * ((d.inode i).len / 64)) 64 newDirent.encode.get ∧
        dirAdd d i newDirent stack = .ok (0, d')) := by
  have hok := hd.ok hi
  have hlt := hd.lt i hi
  have hlook := dirLookup_eq hok.legible hlt hdir hwhole newDirent.key
  have hle := hok.len_le
  by_cases hdup : lookupEntry (d.entries (d.inode i)) newDirent.key = -1
  swap
  · refine .inl ⟨hdup, ?_⟩
    simp only [dirAdd, dirInode_of_lt d hlt, if_pos hdir, hlook, bind, Except.bind, ne_eq, hdup,
      not_false_eq_true, ↓reduceIte]
    rfl
  rcases scan_entries d (d.inode i) (fun e => !e.valid) with ⟨k, hfirst, hk, hf⟩ | ⟨hall, hf⟩
  · -- a slot is reused: its block is there already
    have hpres : (d.inode i).addr (64 * k / 1024) ≠ -1 :=
      (hd.addrs i hi _ (by omega)).mpr (by omega)
    rcases fileWrite_chunk_spec hd hi stack (p := 64 * k) (by omega) (by omega) (by omega)
      (by omega) with ⟨hunset, _⟩ | ⟨d', x', -, hw, hdone⟩
    · exact absurd hunset hpres
    · refine .inr (.inl ⟨hdup, k, d', hfirst, hk, hw, ?_⟩)
      simp only [dirAdd, dirInode_of_lt d hlt, if_pos hdir, hlook, hdup, bind, Except.bind, ne_eq,
        not_true_eq_false, ↓reduceIte, hok.uintOf_size, scanDir_entries hok.legible hwhole, hf,
        Scan.ofIndex, hdone]
      rfl
  · have hvalid : ∀ e ∈ d.entries (d.inode i), e.valid = true := fun e he => by
      simpa using hall e he
    have hoff : direntSize * (offsets (d.inode i).len).length = 64 * ((d.inode i).len / 64) := by
      simp [offsets]
      omega
    have hend : 64 * ((d.inode i).len / 64) = (d.inode i).len := by omega
    have hbound : (d.inode i).addr ((d.inode i).len / 1024) = -1 ↔
        1024 ∣ (d.inode i).len ∨ (d.inode i).len = 12288 := by
      by_cases hk : (d.inode i).len / 1024 < 12
      · have := hd.addrs i hi _ hk
        omega
      · rw [Inode.addr, dif_neg hk]
        omega
    have hadd : ∀ r, fileWrite d (d.inode i) newDirent.encode (64 * ((d.inode i).len / 64)) = r →
        dirAdd d i newDirent stack = (do
          let x ← r
          return (if x.1 = direntSize then 0 else -1, x.2.1)) := by
      intro r hr
      simp only [dirAdd, dirInode_of_lt d hlt, if_pos hdir, hlook, hdup, ne_eq,
        hok.uintOf_size, scanDir_entries hok.legible hwhole, hf,
        Scan.ofIndex, hoff, ← hr]
      rfl
    by_cases hfull : (d.inode i).len = 12288
    · refine .inr (.inr (.inl ⟨hdup, hvalid, .inl hfull, ?_⟩))
      exact hadd _ (fileWrite_too_long _ (by omega) hok (by omega) (by omega))
    rcases fileWrite_chunk_spec hd hi newDirent.encode (p := 64 * ((d.inode i).len / 64)) (by omega)
      (by omega) (by omega) (by omega) with ⟨hunset, hbits, hfail⟩ | ⟨d', x', hmarks, hw, hdone⟩
    · rw [hend] at hunset
      refine .inr (.inr (.inl ⟨hdup, hvalid, .inr ⟨by have := hbound.mp hunset; omega, hbits⟩, ?_⟩))
      exact hadd _ hfail
    · have hneeds : (d.inode i).addr ((d.inode i).len / 1024) = -1 ↔ 1024 ∣ (d.inode i).len := by
        rw [hbound, or_iff_left hfull]
      rw [hend, hneeds] at hmarks
      refine .inr (.inr (.inr ⟨hdup, hvalid, ⟨by omega, ?_⟩, d', hmarks, hw, hadd _ hdone⟩))
      rcases hmarks with ⟨hno, -⟩ | ⟨-, b, hb, hfree, -⟩
      · exact .inl hno
      · exact .inr ⟨b, hb, hfree⟩

end Add

/-- The three outcomes of `dir_remove`: a protected name; no slot of that name; the first such
slot is cleared. -/
theorem dirRemove_cases (hd : WellFormedOn d S) (hi : S i)
    (hdir : (d.inode i).type = .directoryT) (hwhole : 64 ∣ (d.inode i).len) (name : List UInt8) :
    ((name = dotName ∨ name = dotDotName) ∧ dirRemove d i name = .ok (-1, d)) ∨
    (¬ (name = dotName ∨ name = dotDotName) ∧ (∀ e ∈ d.entries (d.inode i), e.key ≠ name) ∧
      dirRemove d i name = .ok (-1, d)) ∨
    (¬ (name = dotName ∨ name = dotDotName) ∧
      ∃ k d', FirstSlot (d.entries (d.inode i)) (fun e => e.key == name) k ∧
        64 * k + 64 ≤ (d.inode i).len ∧ Written d d' S i (64 * k) 64 (Bytes.zero 64).get ∧
        dirRemove d i name = .ok (0, d')) := by
  have hok := hd.ok hi
  have hlt := hd.lt i hi
  have hle := hok.len_le
  have hguard : ¬ i ≥ numInodes := by simp; omega
  by_cases hdot : name = dotName ∨ name = dotDotName
  · refine .inl ⟨hdot, ?_⟩
    rw [dirRemove, if_neg hguard, if_pos hdot]
  rcases scan_entries d (d.inode i) (fun e => e.key == name) with ⟨k, hfirst, hk, hf⟩ | ⟨hall, hf⟩
  · have hpres : (d.inode i).addr (64 * k / 1024) ≠ -1 :=
      (hd.addrs i hi _ (by omega)).mpr (by omega)
    rcases fileWrite_chunk_spec hd hi (Bytes.zero 64) (p := 64 * k) (by omega) (by omega) (by omega)
      (by omega) with ⟨hunset, _⟩ | ⟨d', x', -, hw, hdone⟩
    · exact absurd hunset hpres
    · refine .inr (.inr ⟨hdot, k, d', hfirst, hk, hw, ?_⟩)
      rw [dirRemove, if_neg hguard, if_neg hdot, dirInode_of_lt d hlt, if_pos hdir]
      simp only [bind, Except.bind, scanDir_entries hok.legible hwhole, hf, Scan.ofIndex, hdone]
      rfl
  · refine .inr (.inl ⟨hdot, fun e he => by simpa using hall e he, ?_⟩)
    rw [dirRemove, if_neg hguard, if_neg hdot, dirInode_of_lt d hlt, if_pos hdir]
    simp only [bind, Except.bind, scanDir_entries hok.legible hwhole, hf, Scan.ofIndex]
    rfl

end PicoShell.Fs

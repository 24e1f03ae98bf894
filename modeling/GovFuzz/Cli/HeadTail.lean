import GovFuzz.Cli.Seeds

/-!
# Cli — bounded diagnostic capture

`read_bounded_head_tail` of `crates/cli/src/fuzz.rs`.  The two buffers and
the flag are at every point a function of the bytes read so far
(`captured`), so that the chunks these came in do not show.
-/

namespace GovFuzz.Cli

open GovFuzz.Lib

/-! ## The last bytes of a list -/

/-- What a queue of `n` places holds after everything went through it. -/
def lastBytes (n : Nat) (bytes : List UInt8) : List UInt8 := bytes.drop (bytes.length - n)

@[simp] theorem length_lastBytes (n : Nat) (bytes : List UInt8) :
    (lastBytes n bytes).length = min n bytes.length := by
  simp only [lastBytes, List.length_drop]
  omega

theorem lastBytes_of_length_le {n : Nat} {bytes : List UInt8} (h : bytes.length ≤ n) :
    lastBytes n bytes = bytes := by
  simp [lastBytes, Nat.sub_eq_zero_of_le h]

/-- Of what was in front, only as much is left as the new bytes leave room
for. -/
theorem lastBytes_append {n : Nat} (front : List UInt8) {bytes : List UInt8}
    (h : bytes.length ≤ n) :
    lastBytes n (front ++ bytes) = lastBytes (n - bytes.length) front ++ bytes := by
  have hdrop : front.length + bytes.length - n = front.length - (n - bytes.length) := by omega
  have hin : front.length - (n - bytes.length) ≤ front.length := Nat.sub_le _ _
  simp [lastBytes, hdrop, List.drop_append_of_le_length hin]

theorem lastBytes_append_long {n : Nat} (front : List UInt8) {bytes : List UInt8}
    (h : n ≤ bytes.length) : lastBytes n (front ++ bytes) = lastBytes n bytes := by
  have hdrop : front.length + bytes.length - n = front.length + (bytes.length - n) := by omega
  simp [lastBytes, hdrop, List.drop_append]

/-- The queue with room for the new bytes. -/
theorem queue_fits {n : Nat} (front : List UInt8) {bytes : List UInt8}
    (h : (lastBytes n front).length + bytes.length ≤ n) :
    lastBytes n front ++ bytes = lastBytes n (front ++ bytes) := by
  rw [length_lastBytes] at h
  rw [lastBytes_append front (by omega)]
  rcases Nat.le_total front.length n with hle | hle
  · rw [lastBytes_of_length_le hle, lastBytes_of_length_le (by omega)]
  · -- a full queue has room for nothing
    have hnil : bytes.length = 0 := by omega
    simp [List.eq_nil_of_length_eq_zero hnil]

/-- The queue that gives up its oldest bytes, as many as do not fit. -/
theorem queue_overflows {n : Nat} (front : List UInt8) {bytes : List UInt8}
    (h : n < (lastBytes n front).length + bytes.length) :
    (lastBytes n front).drop
        (min ((lastBytes n front).length + bytes.length - n) (lastBytes n front).length)
      ++ (if n < bytes.length then bytes.drop (bytes.length - n) else bytes)
      = lastBytes n (front ++ bytes) := by
  rcases Nat.lt_or_ge n bytes.length with hlong | hshort
  · -- the chunk alone is longer than the queue
    have hall : min ((lastBytes n front).length + bytes.length - n) (lastBytes n front).length
        = (lastBytes n front).length := by omega
    rw [hall, List.drop_length, List.nil_append, if_pos hlong,
      lastBytes_append_long front (by omega), lastBytes]
  · have hsome : min ((lastBytes n front).length + bytes.length - n) (lastBytes n front).length
        = (lastBytes n front).length + bytes.length - n := by omega
    rw [hsome, if_neg (by omega), lastBytes_append front hshort]
    congr 1
    rw [length_lastBytes] at *
    have hdrop : front.length - n + (min n front.length + bytes.length - n)
        = front.length - (n - bytes.length) := by omega
    simp [lastBytes, hdrop]

/-! ## The capture -/

/-- One `read`: a chunk, or an error. -/
abbrev ReadResult := Option (List UInt8)

/-- The size of the buffer that is read into. -/
def chunkSize : Nat := 64 * 1024

def truncationMarker : List UInt8 := toUtf8 "\n[govfuzz: diagnostic output truncated]\n"

/-- The variables of the loop. -/
@[ext]
structure HeadTail where
  head : List UInt8
  tail : List UInt8
  truncated : Bool
  deriving DecidableEq, Repr

def headCap (cap : Nat) : Nat := cap / 2

def tailCap (cap : Nat) : Nat := cap - headCap cap

/-- What the head still takes of a chunk. -/
def HeadTail.room (cap : Nat) (s : HeadTail) (chunk : List UInt8) : Nat :=
  if s.head.length < headCap cap then min chunk.length (headCap cap - s.head.length) else 0

/-- One round of the loop, with a chunk that is not empty. -/
def HeadTail.push (cap : Nat) (s : HeadTail) (chunk : List UInt8) : HeadTail :=
  let head := s.head ++ chunk.take (s.room cap chunk)
  let bytes := chunk.drop (s.room cap chunk)
  if bytes = [] then { s with head }
  else if tailCap cap < saturatingAdd s.tail.length bytes.length then
    let excess := saturatingAdd s.tail.length bytes.length - tailCap cap
    let remove := min excess s.tail.length
    let bytes :=
      if tailCap cap < bytes.length then bytes.drop (bytes.length - tailCap cap) else bytes
    { head, tail := s.tail.drop remove ++ bytes, truncated := true }
  else { s with head, tail := s.tail ++ bytes }

/-- The loop: an error ends it like the end of the stream. -/
def HeadTail.readAll (cap : Nat) : HeadTail → List ReadResult → HeadTail
  | s, [] => s
  | s, none :: _ => s
  | s, some chunk :: reads => if chunk = [] then s else (s.push cap chunk).readAll cap reads

def HeadTail.finish (s : HeadTail) : List UInt8 :=
  s.head ++ (if s.truncated then truncationMarker else []) ++ s.tail

def readBoundedHeadTail (cap : Nat) (reads : List ReadResult) : List UInt8 :=
  (HeadTail.readAll cap ⟨[], [], false⟩ reads).finish

/-! ## What was captured -/

/-- The variables as a function of the bytes read so far. -/
def captured (cap : Nat) (stream : List UInt8) : HeadTail where
  head := stream.take (headCap cap)
  tail := lastBytes (tailCap cap) (stream.drop (headCap cap))
  truncated := cap < stream.length

theorem headCap_add_tailCap (cap : Nat) : headCap cap + tailCap cap = cap := by
  simp only [headCap, tailCap]
  omega

/-- Neither sum of the loop saturates. -/
theorem saturatingAdd_lengths {cap a b : Nat} (hcap : cap < 2 ^ 64) (ha : a ≤ tailCap cap)
    (hb : b ≤ chunkSize) : saturatingAdd a b = a + b := by
  have htail : 2 * tailCap cap ≤ cap + 1 := by
    simp only [tailCap, headCap]
    omega
  simp only [saturatingAdd, chunkSize] at *
  omega

section
variable {cap : Nat} (stream : List UInt8) (chunk : List UInt8)

theorem room_captured :
    (captured cap stream).room cap chunk = min chunk.length (headCap cap - stream.length) := by
  simp only [HeadTail.room, captured, List.length_take]
  split <;> omega

theorem head_captured :
    (captured cap stream).head ++ chunk.take ((captured cap stream).room cap chunk)
      = (captured cap (stream ++ chunk)).head := by
  rw [room_captured]
  simp [captured, List.take_append, Nat.min_comm]

theorem drop_room :
    stream.drop (headCap cap) ++ chunk.drop ((captured cap stream).room cap chunk)
      = (stream ++ chunk).drop (headCap cap) := by
  rw [room_captured, List.drop_append]
  congr 1
  rcases Nat.le_total chunk.length (headCap cap - stream.length) with hle | hle
  · rw [Nat.min_eq_left hle, List.drop_length, List.drop_eq_nil_of_le hle]
  · rw [Nat.min_eq_right hle]

/-- A round takes what was captured of the bytes read so far to what is
captured of them and the chunk. -/
theorem push_captured (hcap : cap < 2 ^ 64) (hchunk : chunk.length ≤ chunkSize) :
    (captured cap stream).push cap chunk = captured cap (stream ++ chunk) := by
  have hhead := @head_captured cap stream chunk
  have hrest := @drop_room cap stream chunk
  have hroom := @room_captured cap stream chunk
  have hcaps := headCap_add_tailCap cap
  have htail : (captured cap stream).tail = lastBytes (tailCap cap) (stream.drop (headCap cap)) :=
    rfl
  have hcut : (captured cap stream).truncated = decide (cap < stream.length) := rfl
  rw [HeadTail.push]
  generalize (captured cap stream).room cap chunk = room at *
  have hbytes : (chunk.drop room).length = chunk.length - room := List.length_drop ..
  have hlen : (captured cap stream).tail.length
      = min (tailCap cap) (stream.length - headCap cap) := by
    simp [htail]
  have hsum : saturatingAdd (captured cap stream).tail.length (chunk.drop room).length
      = (captured cap stream).tail.length + (chunk.drop room).length := by
    refine saturatingAdd_lengths hcap ?_ ?_ <;> omega
  have hcut' : (captured cap (stream ++ chunk)).truncated
      = decide (cap < stream.length + chunk.length) := by
    simp [captured]
  have htail' : (captured cap (stream ++ chunk)).tail
      = lastBytes (tailCap cap) (stream.drop (headCap cap) ++ chunk.drop room) := by
    rw [hrest]
    rfl
  simp only [hsum]
  split
  · -- the head takes the whole chunk
    rename_i hnil
    have hshort : chunk.length - room = 0 := by simp [← hbytes, hnil]
    refine HeadTail.ext hhead ?_ ?_
    · rw [htail', hnil, List.append_nil, htail]
    · rw [hcut, hcut', decide_eq_decide]
      omega
  · rename_i hne
    have hpos : 0 < (chunk.drop room).length := List.length_pos_of_ne_nil hne
    split
    · rename_i hover
      refine HeadTail.ext hhead ?_ ?_
      · rw [htail', htail]
        exact queue_overflows _ (by rwa [htail] at hover)
      · rw [hcut', eq_comm, decide_eq_true_eq]
        omega
    · rename_i hfits
      refine HeadTail.ext hhead ?_ ?_
      · rw [htail', htail]
        exact queue_fits _ (by rw [htail] at hfits; omega)
      · rw [hcut, hcut', decide_eq_decide]
        omega

end

/-- The run: the bytes read are the chunks one after the other. -/
theorem readAll_captured {cap : Nat} (hcap : cap < 2 ^ 64) (stream : List UInt8)
    {chunks : List (List UInt8)}
    (hchunks : ∀ chunk ∈ chunks, 1 ≤ chunk.length ∧ chunk.length ≤ chunkSize)
    (behind : List ReadResult) :
    (captured cap stream).readAll cap (chunks.map some ++ some [] :: behind)
      = captured cap (stream ++ chunks.flatten) := by
  induction chunks generalizing stream with
  | nil => simp [HeadTail.readAll]
  | cons chunk chunks ih =>
      obtain ⟨hpos, hsize⟩ := hchunks chunk (List.mem_cons_self ..)
      have hne : chunk ≠ [] := List.ne_nil_of_length_pos hpos
      have hrest : ∀ c ∈ chunks, 1 ≤ c.length ∧ c.length ≤ chunkSize := by
        intro c hc
        exact hchunks c (List.mem_cons_of_mem _ hc)
      simp only [List.map_cons, List.cons_append, HeadTail.readAll, if_neg hne]
      rw [push_captured stream chunk hcap hsize, ih _ hrest]
      simp

theorem finish_captured (cap : Nat) (stream : List UInt8) :
    (captured cap stream).finish
      = if stream.length ≤ cap then stream
        else stream.take (headCap cap) ++ truncationMarker
          ++ stream.drop (stream.length - tailCap cap) := by
  have hcaps := headCap_add_tailCap cap
  by_cases hle : stream.length ≤ cap
  · have hfits : (stream.drop (headCap cap)).length ≤ tailCap cap := by
      rw [List.length_drop]
      omega
    have hkept : ¬ cap < stream.length := by omega
    simp [HeadTail.finish, captured, hle, hkept, lastBytes_of_length_le hfits]
  · have hlost : cap < stream.length := by omega
    have hdrop : headCap cap + (stream.length - headCap cap - tailCap cap)
        = stream.length - tailCap cap := by omega
    simp [HeadTail.finish, captured, hle, hlost, lastBytes, hdrop]

/-- **The capture depends on the bytes only**: a stream of at most `cap`
bytes comes back whole, a longer one as its first `cap / 2` bytes, the marker
and its last `cap - cap / 2`, whatever chunks it is read in. -/
theorem readBoundedHeadTail_eq (cap : Nat) (chunks : List (List UInt8)) (behind : List ReadResult)
    (hcap : cap < 2 ^ 64)
    (hchunks : ∀ chunk ∈ chunks, 1 ≤ chunk.length ∧ chunk.length ≤ chunkSize) :
    readBoundedHeadTail cap (chunks.map some ++ some [] :: behind)
      = if chunks.flatten.length ≤ cap then chunks.flatten
        else chunks.flatten.take (cap / 2) ++ truncationMarker
          ++ chunks.flatten.drop (chunks.flatten.length - (cap - cap / 2)) := by
  have hstart : (⟨[], [], false⟩ : HeadTail) = captured cap [] := by
    simp [captured, lastBytes]
  rw [readBoundedHeadTail, hstart, readAll_captured hcap [] hchunks, List.nil_append,
    finish_captured]
  rfl

/-- A chunk that fills the head and overruns the tail, behind one that does
neither. -/
theorem readBoundedHeadTail_eq_straddling :
    readBoundedHeadTail 4 [some [1], some [2, 3, 4, 5, 6], some []]
      = [1, 2] ++ truncationMarker ++ [5, 6] :=
  readBoundedHeadTail_eq 4 [[1], [2, 3, 4, 5, 6]] [] (by decide) (by decide)

end GovFuzz.Cli

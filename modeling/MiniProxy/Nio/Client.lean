import MiniProxy.Nio.Rio

/-!
# The client

`client.c` sends the lines of its standard input to a server, one at a time, and prints one line of the
server's data after each. Both go through one array, which a read that stores nothing leaves as it is.

* `clientLoop`, `client`: `main` once it is connected; `Session`: what it does to its streams;
* `sent`, `transcript`: the lines sent for an input, and the lines printed for it;
* `Session.Follows`: a session does a part of that, in step; `Session.Uses`: by the results of `write`;
* **`client_follows`**: every session does, and does all of it if `main` returns; if `main` exits
  instead, a write failed, or the server's data did not end with the end of the file.
-/

namespace MiniProxy

open Clib Lines

/-! ## The function -/

/-- How far `main` has come: it has returned, a wrapper has ended the process, or a `write` waits. -/
inductive Stop where
  | returned
  | exited
  | waiting
  deriving DecidableEq

/-- What `main` has done: for each line of its input the bytes that the server's socket has accepted, for
each line read the string printed, and how far it has come. -/
structure Session where
  toServer : List (List UInt8)
  stdout : List (List UInt8)
  stop : Stop
  deriving DecidableEq

/-- The session that goes on with one more line. -/
def Session.cons (accepted printed : List UInt8) (s : Session) : Session :=
  ⟨accepted :: s.toServer, printed :: s.stdout, s.stop⟩

/-- The loop of `main`: `fgets` takes a line of `stdin` or finds its end, `Rio_writen` sends the string
in `buf` by `write`s that give `evs`, `Rio_readlineb` stores to `buf`, and `fputs` prints the string
there. -/
def clientLoop (stdin : List UInt8) (evs : List WriteEv) (rio : Rio) (buf : Buf maxline) :
    Exec Session :=
  if h : stdin = [] then .ok ⟨[], [], .returned⟩ else do
    let buf ← buf.write 0 (takeLine newline (maxline - 1) stdin ++ [0])
    let line ← buf.str
    let written := rioWriten line evs
    match written.ret with
    | none => .ok ⟨[written.accepted], [], .waiting⟩
    | some n =>
      if n ≠ line.length then .ok ⟨[written.accepted], [], .exited⟩ else do
        let read := rioReadlineb rio maxline
        if read.ret < 0 then .ok ⟨[written.accepted], [], .exited⟩ else do
          let buf ← buf.write 0 read.usrbuf
          let printed ← buf.str
          let s ← clientLoop (dropLine newline (maxline - 1) stdin) written.rest read.rp buf
          .ok (s.cons written.accepted printed)
termination_by stdin.length
decreasing_by exact length_dropLine_lt newline (by decide) h

/-- `main` with the descriptor `clientfd`, whose stack holds `rioBuf` and `buf`. -/
def client (stdin : List UInt8) (evs : List WriteEv) (clientfd : Sock) (rioBuf : Buf nioBufsize)
    (buf : Buf maxline) : Exec Session :=
  clientLoop stdin evs (rioReadinitb rioBuf clientfd) buf

/-! ## What a session is to do -/

/-- The lines of a stream that an array of `maxline` bytes takes. -/
def textLines (l : List UInt8) : List (List UInt8) := splitLines newline (maxline - 2) l

/-- The lines sent for the lines of the input: a NUL hides what follows it. -/
def sent (lines : List (List UInt8)) : List (List UInt8) := lines.map cstr

/-- The lines printed: after each line of the input one of the server's, and the line itself once there
is none. -/
def transcript : List (List UInt8) → List (List UInt8) → List (List UInt8)
  | [], _ => []
  | line :: lines, [] => cstr line :: transcript lines []
  | _ :: lines, reply :: replies => cstr reply :: transcript lines replies

/-- A session does a part of what it is to do: what it prints is one line behind what it sends, or not
even that. It does all of it if `main` returns. -/
structure Session.Follows (lines replies : List (List UInt8)) (s : Session) : Prop where
  toServer : s.toServer.flatten <+: (sent lines).flatten
  stdout : s.stdout <+: transcript lines replies
  inStep : s.stdout.length ≤ s.toServer.length ∧ s.toServer.length ≤ s.stdout.length + 1
  all : s.stop = .returned → s.toServer = sent lines ∧ s.stdout = transcript lines replies

/-- A session has used the results `useds`, one list for each line that it has sent or begun to send, and
has `rest` still to come: it has sent what they have accepted of that line, each result was asked for
while bytes of it were left, and nothing is left to come if a `write` waits. -/
structure Session.Uses (lines : List (List UInt8)) (evs : List WriteEv) (s : Session)
    (useds : List (List WriteEv)) (rest : List WriteEv) : Prop where
  evs_eq : evs = useds.flatten ++ rest
  length_eq : useds.length = s.toServer.length
  toServer_eq : s.toServer = List.zipWith (fun line used => line.take (counted used)) (sent lines) useds
  asked : ∀ x ∈ (sent lines).zip useds, ∀ u ev, u ++ [ev] <+: x.2 → counted u < x.1.length
  waiting : s.stop = .waiting → rest = []

namespace Session.Uses

variable {lines : List (List UInt8)} {line : List UInt8} {evs rest : List WriteEv} {s : Session}
  {used : List WriteEv} {useds : List (List WriteEv)} {written : Written}

theorem stopped (h : written.Uses WriteEv.rioRet (cstr line) 0 evs used) {stop : Stop}
    (hstop : stop = .waiting → written.rest = []) :
    (Session.mk [written.accepted] [] stop).Uses (line :: lines) evs [used] written.rest where
  evs_eq := by
    rw [List.flatten_singleton]
    exact h.evs_eq
  length_eq := rfl
  toServer_eq := by
    have hacc := h.accepted_eq
    rw [Nat.zero_add] at hacc
    rw [hacc, sent, List.map_cons, List.zipWith_cons_cons, List.zipWith_nil_right]
  asked x hx u ev hu := by
    rw [sent, List.map_cons, List.zip_cons_cons, List.zip_nil_right, List.mem_singleton] at hx
    subst hx
    have hlt := h.asked u ev hu
    rwa [Nat.zero_add] at hlt
  waiting := hstop

theorem cons {printed : List UInt8} (h : written.Uses WriteEv.rioRet (cstr line) 0 evs used)
    (hs : s.Uses lines written.rest useds rest) :
    (s.cons written.accepted printed).Uses (line :: lines) evs (used :: useds) rest where
  evs_eq := by
    rw [List.flatten_cons, List.append_assoc, ← hs.evs_eq]
    exact h.evs_eq
  length_eq := congrArg (· + 1) hs.length_eq
  toServer_eq := by
    have hacc := h.accepted_eq
    rw [Nat.zero_add] at hacc
    rw [sent, List.map_cons, List.zipWith_cons_cons, ← hacc]
    exact congrArg (written.accepted :: ·) hs.toServer_eq
  asked x hx u ev hu := by
    rw [sent, List.map_cons, List.zip_cons_cons] at hx
    rcases List.mem_cons.mp hx with rfl | hx
    · have hlt := h.asked u ev hu
      rwa [Nat.zero_add] at hlt
    · exact hs.asked x hx u ev hu
  waiting := hs.waiting

end Session.Uses

namespace Session.Follows

variable {lines replies : List (List UInt8)} {line reply accepted : List UInt8} {s : Session}

theorem stopped (h : accepted <+: cstr line) {stop : Stop} (hstop : stop ≠ .returned) :
    (Session.mk [accepted] [] stop).Follows (line :: lines) replies where
  toServer := by
    rw [List.flatten_singleton, sent, List.map_cons, List.flatten_cons]
    exact h.trans (List.prefix_append _ _)
  stdout := List.nil_prefix
  inStep := ⟨Nat.zero_le _, le_rfl⟩
  all h := absurd h hstop

theorem cons {printed : List UInt8} {replies' : List (List UInt8)}
    (htr : transcript (line :: lines) replies = printed :: transcript lines replies')
    (h : s.Follows lines replies') : (s.cons (cstr line) printed).Follows (line :: lines) replies where
  toServer := by
    rw [Session.cons, sent, List.map_cons, List.flatten_cons, List.flatten_cons]
    exact (List.prefix_append_right_inj _).mpr h.toServer
  stdout := by
    rw [htr]
    exact (List.prefix_cons_inj _).mpr h.stdout
  inStep := ⟨Nat.succ_le_succ h.inStep.1, Nat.succ_le_succ h.inStep.2⟩
  all hret := by
    obtain ⟨hto, hout⟩ := h.all hret
    refine ⟨congrArg (cstr line :: ·) hto, ?_⟩
    rw [htr]
    exact congrArg (printed :: ·) hout

end Session.Follows

/-! ## One line -/

/-- A failure that `rio_writen` returns. -/
def WriteEv.broken (ev : WriteEv) : Prop := ev = .fails .epipe ∨ ev = .fails .other

theorem str_of_write_terminated {n : ℕ} (b : Buf n) {s : List UInt8} (h : s.length < n) :
    ∃ c, b.write 0 (s ++ [0]) = .ok c ∧ c.str = .ok (cstr s) := by
  obtain ⟨c, hc, hbytes⟩ := b.exists_write 0 (s ++ [0]) (by
    rw [List.length_append, List.length_singleton]
    omega)
  rw [List.take_zero, List.nil_append, List.append_assoc, List.singleton_append] at hbytes
  refine ⟨c, hc, Buf.str_eq_ok.mpr ⟨?_, ?_⟩⟩
  · rw [hbytes]
    exact List.mem_append_right _ List.mem_cons_self
  · rw [hbytes, cstr_append_cons_zero]

theorem rioReadlineb_prints (rio : Rio) {buf : Buf maxline} {line : List UInt8}
    (hbuf : buf.str = .ok line) (hret : ¬ (rioReadlineb rio maxline).ret < 0) :
    ∃ buf', buf.write 0 (rioReadlineb rio maxline).usrbuf = .ok buf' ∧
      buf'.str = .ok (if rio.bytes = [] then line else cstr (takeLine newline (maxline - 1) rio.bytes)) := by
  obtain ⟨rp', h, -, -⟩ := rioReadlineb_spec rio (maxline - 1)
  have hmax : maxline - 1 + 1 = maxline := rfl
  have hline := @rioReadlineb_of_nonneg rio (maxline - 1)
  rw [hmax] at h hline
  obtain ⟨hlen, hstored⟩ := hline (Int.not_lt.mp hret)
  by_cases hnil : rio.bytes = []
  · rw [if_pos hnil, h, hnil, takeLine_nil]
    have hempty : lineStored [] (([] : List UInt8).length = maxline - 1) rio.fd.ending.strict = [] :=
      if_neg (by simp [maxline])
    refine ⟨buf, ?_, hbuf⟩
    obtain ⟨c, hc, hbytes⟩ := buf.exists_write 0 [] (Nat.zero_le _)
    rw [hempty, hc]
    exact congrArg Except.ok (Buf.ext hbytes)
  · rw [if_neg hnil]
    have hpos : 0 < (takeLine newline (maxline - 1) rio.bytes).length :=
      List.length_pos_iff.mpr (takeLine_ne_nil newline (by decide) hnil)
    rw [hstored (by omega)]
    exact str_of_write_terminated buf
      ((length_takeLine_le newline _ _).trans_lt (by decide))

theorem textLines_nil : textLines [] = [] := splitLines_nil newline _

theorem textLines_of_ne_nil {l : List UInt8} (h : l ≠ []) :
    textLines l = takeLine newline (maxline - 1) l :: textLines (dropLine newline (maxline - 1) l) :=
  splitLines_of_ne_nil newline (maxline - 2) h

/-! ## The session -/

theorem transcript_cons (line : List UInt8) (lines : List (List UInt8)) (bytes : List UInt8) :
    transcript (line :: lines) (textLines bytes) =
      (if bytes = [] then cstr line else cstr (takeLine newline (maxline - 1) bytes)) ::
        transcript lines (textLines (dropLine newline (maxline - 1) bytes)) := by
  by_cases hnil : bytes = []
  · rw [if_pos hnil, hnil, dropLine_nil, textLines_nil]
    rfl
  · rw [if_neg hnil, textLines_of_ne_nil hnil]
    rfl

theorem clientLoop_follows (stdin : List UInt8) (evs : List WriteEv) (rio : Rio) (buf : Buf maxline) :
    ∃ s, clientLoop stdin evs rio buf = .ok s ∧
      s.Follows (textLines stdin) (textLines rio.bytes) ∧
      (s.stop = .exited → (∃ ev ∈ evs, ev.broken) ∨ rio.fd.ending ≠ .eof) ∧
      ∃ useds rest, s.Uses (textLines stdin) evs useds rest := by
  induction stdin using line_induction newline (maxline - 2) generalizing evs rio buf with
  | nil =>
    rw [clientLoop, dif_pos rfl, textLines_nil]
    refine ⟨_, rfl, ⟨List.prefix_refl _, List.prefix_refl _, ⟨le_rfl, Nat.le_succ _⟩, ?_⟩, nofun,
      [], evs, ⟨rfl, rfl, rfl, nofun, nofun⟩⟩
    exact fun _ => ⟨rfl, rfl⟩
  | line stdin hne ih =>
    have hmax : maxline - 2 + 1 = maxline - 1 := rfl
    rw [hmax] at ih
    rw [clientLoop, dif_neg hne, textLines_of_ne_nil hne]
    have hlen : (takeLine newline (maxline - 1) stdin).length < maxline :=
      (length_takeLine_le newline _ _).trans_lt (by decide)
    generalize takeLine newline (maxline - 1) stdin = line at hlen
    obtain ⟨buf₁, hwrite, hstr⟩ := str_of_write_terminated buf hlen
    obtain ⟨used, hused⟩ := rioWriten_uses (cstr line) evs
    simp only [hwrite, ok_bind, hstr]
    generalize rioWriten (cstr line) evs = written at hused
    have hpre : written.accepted <+: cstr line := hused.accepted_eq ▸ List.take_prefix _ _
    rcases hused.rio_cases with ⟨hret, hacc⟩ | ⟨hret, -, ev, hmem, hev⟩ | ⟨hret, hrest⟩
    · -- the line has been sent
      simp only [hret, ne_eq, not_true_eq_false, if_false]
      by_cases hread : (rioReadlineb rio maxline).ret < 0
      · have hend := ((rioReadlineb_neg_iff rio (maxline - 1)).mp hread).2.2
        rw [if_pos hread]
        exact ⟨_, rfl, .stopped hpre nofun, fun _ => .inr hend, [used], _, .stopped hused nofun⟩
      · obtain ⟨buf₂, hwrite₂, hprinted⟩ := rioReadlineb_prints rio hstr hread
        obtain ⟨rp, hrp, hbytes, hending⟩ := rioReadlineb_spec rio (maxline - 1)
        have hrp' : (rioReadlineb rio maxline).rp = rp := congrArg Line.rp hrp
        obtain ⟨s, hs, hfollows, hexit, useds, rest, huses⟩ := ih written.rest rp buf₂
        rw [if_neg hread, hwrite₂, ok_bind, hprinted, ok_bind, hrp', hs, ok_bind]
        rw [hbytes] at hfollows
        refine ⟨_, rfl, ?_, fun h => ?_, used :: useds, rest, .cons hused huses⟩
        · rw [hacc]
          exact .cons (transcript_cons line _ _) hfollows
        · rcases hexit h with ⟨ev, hmem, hev⟩ | hend
          · refine .inl ⟨ev, ?_, hev⟩
            rw [hused.evs_eq]
            exact List.mem_append_right used hmem
          · refine .inr fun heof => hend ?_
            rw [heof] at hending
            exact Ending.eof_of_strict hending
    · -- `Rio_writen` ends the process
      have hne : (-1 : ℤ) ≠ (cstr line).length := by omega
      simp only [hret, if_pos hne]
      refine ⟨_, rfl, .stopped hpre nofun, fun _ => .inl ⟨ev, ?_, hev⟩, [used], _, .stopped hused nofun⟩
      rw [hused.evs_eq]
      exact List.mem_append_left _ hmem
    · simp only [hret]
      exact ⟨_, rfl, .stopped hpre nofun, nofun, [used], _, .stopped hused fun _ => hrest⟩

/-- **Every session sends the lines of the input and prints the lines of the server's data, in step**,
for every input, every server and every schedule of reads and writes. It does so to the end of the input
if `main` returns; if `main` exits instead, a write failed or the data did not end with the end of the
file. What it sends is what the results of `write` have accepted of each line, and it waits only when all
of them are used. -/
theorem client_follows (stdin : List UInt8) (evs : List WriteEv) (clientfd : Sock)
    (rioBuf : Buf nioBufsize) (buf : Buf maxline) :
    ∃ s, client stdin evs clientfd rioBuf buf = .ok s ∧
      s.Follows (textLines stdin) (textLines clientfd.bytes) ∧
      (s.stop = .exited → (∃ ev ∈ evs, ev.broken) ∨ clientfd.ending ≠ .eof) ∧
      ∃ useds rest, s.Uses (textLines stdin) evs useds rest := by
  obtain ⟨s, hs, hfollows, hexit⟩ := clientLoop_follows stdin evs (rioReadinitb rioBuf clientfd) buf
  have hbytes : (rioReadinitb rioBuf clientfd).bytes = clientfd.bytes := nioReadinitb_bytes rioBuf clientfd
  rw [hbytes] at hfollows
  exact ⟨s, hs, hfollows, hexit⟩

end MiniProxy

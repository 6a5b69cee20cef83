import Aex.Server.Error

/-!
# Server configuration

The settings the modelled components read, with the checks made on them before
the server takes its sockets.
-/

namespace Aex

/-- Data connections granted to a client that states no preference. -/
def defaultStreams : Nat := 8

structure Limits where
  maxSessions : Nat := 64
  maxFancyIndices : Nat := 262144
  grpcMaxMessageBytes : Nat := 4 * 1024 * 1024
  maxStreamsPerSession : Nat := 32
  maxTransfersPerSession : Nat := 64
  sessionIdleTimeoutSec : Nat := 300
  transferTtlSec : Nat := 60
  deriving Repr, DecidableEq

structure TransferLimits where
  defaultChunkBytes : Nat := 4 * 1024 * 1024
  readBufferBytes : Nat := 512 * 1024
  maxFetchBytes : Nat := 16 * 1024 * 1024
  inlineLimitBytes : Nat := 64 * 1024
  deriving Repr, DecidableEq

structure ServerConfig where
  limits : Limits := {}
  transfer : TransferLimits := {}
  /-- Files may only be opened under these directories. -/
  roots : List String := ["/data"]
  deriving Repr, DecidableEq

/-- Reject settings that would misbehave rather than fail loudly later. -/
def ServerConfig.validate (c : ServerConfig) : Except ServerError Unit :=
  if c.limits.maxSessions = 0 then
    .error (.config "limits.max_sessions must be at least 1")
  else if c.limits.maxStreamsPerSession = 0 then
    .error (.config "limits.max_streams_per_session must be at least 1")
  else if c.limits.maxTransfersPerSession = 0 then
    .error (.config "limits.max_transfers_per_session must be at least 1")
  else if c.limits.sessionIdleTimeoutSec = 0 then
    .error (.config "limits.session_idle_timeout_sec must be at least 1")
  else if c.limits.transferTtlSec = 0 then
    .error (.config "limits.transfer_ttl_sec must be at least 1")
  else if c.transfer.defaultChunkBytes = 0 then
    .error (.config "transfer.default_chunk_bytes must be at least 1")
  else if c.transfer.readBufferBytes = 0 then
    .error (.config "transfer.read_buffer_bytes must be at least 1")
  else if c.transfer.maxFetchBytes < c.transfer.defaultChunkBytes then
    .error (.config s!"transfer.max_fetch_bytes ({c.transfer.maxFetchBytes}) is below transfer.default_chunk_bytes ({c.transfer.defaultChunkBytes})")
  else if c.transfer.inlineLimitBytes > c.limits.grpcMaxMessageBytes then
    .error (.config s!"transfer.inline_limit_bytes ({c.transfer.inlineLimitBytes}) exceeds limits.grpc_max_message_bytes ({c.limits.grpcMaxMessageBytes})")
  else if c.roots = [] then
    .error (.config "paths.roots is empty: no file could be opened")
  else .ok ()

/-- A configuration the server starts with. -/
structure ValidConfig extends ServerConfig where
  valid : toServerConfig.validate = .ok ()

theorem ServerConfig.default_validates : ({} : ServerConfig).validate = .ok () := rfl

namespace ValidConfig

/-- The built-in settings. -/
def builtIn : ValidConfig := ⟨{}, ServerConfig.default_validates⟩

variable (c : ValidConfig)

/-- The bounds a validated configuration keeps. -/
theorem bounds : 0 < c.limits.maxSessions ∧ 0 < c.limits.maxStreamsPerSession ∧
    0 < c.limits.maxTransfersPerSession ∧ 0 < c.limits.sessionIdleTimeoutSec ∧
    0 < c.limits.transferTtlSec ∧ 0 < c.transfer.defaultChunkBytes ∧
    0 < c.transfer.readBufferBytes ∧ c.transfer.defaultChunkBytes ≤ c.transfer.maxFetchBytes := by
  have h := c.valid
  unfold ServerConfig.validate at h
  iterate 8 (split at h; · cases h)
  omega

theorem maxTransfers_pos : 0 < c.limits.maxTransfersPerSession := c.bounds.2.2.1

theorem readBuffer_pos : 0 < c.transfer.readBufferBytes := c.bounds.2.2.2.2.2.2.1

theorem defaultChunk_pos : 0 < c.transfer.defaultChunkBytes := c.bounds.2.2.2.2.2.1

theorem defaultChunk_le : c.transfer.defaultChunkBytes ≤ c.transfer.maxFetchBytes :=
  c.bounds.2.2.2.2.2.2.2

end ValidConfig

end Aex

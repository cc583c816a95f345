import Mathlib

/-!
# Region configurations

`types.go`, `source.go`. A coordinator can override the configuration of the slaves in a region. The
slave asks for it when it starts (`GetRegionConfig`): the coordinator encodes the configuration of the
region (`ToProto`), the slave decodes it (`BlobCacheServerConfigFromProto`), uses it in place of its own
and mounts the sources that are in it (`NewSource`).

Encoder and decoder are two lists of fields. A source is encoded with the part that its mode selects. Of
a mount point that is all of it; the message for JuiceFS has no fields for the sizes and the prefetching,
so that a slave mounts with the defaults of `Mount` and `Format` whatever the region says.
-/

namespace Blobcache.Coordinator
set_option autoImplicit false

def sourceModeJuiceFS : String := "juicefs"

def sourceModeMountPoint : String := "mountpoint"

@[ext]
structure JuiceFSConfig where
  redisURI : String := ""
  bucket : String := ""
  accessKey : String := ""
  secretKey : String := ""
  cacheSize : Int := 0
  blockSize : Int := 0
  prefetch : Int := 0
  bufferSize : Int := 0
  deriving DecidableEq, Repr

structure MountPointConfig where
  bucketName : String := ""
  accessKey : String := ""
  secretKey : String := ""
  region : String := ""
  endpointURL : String := ""
  forcePathStyle : Bool := false
  deriving DecidableEq, Repr

structure SourceConfig where
  mode : String
  filesystemName : String
  filesystemPath : String
  juiceFS : JuiceFSConfig := {}
  mountPoint : MountPointConfig := {}
  deriving DecidableEq, Repr

/-- Without `Metadata` and `Regions`, which neither the encoder nor the decoder touches. -/
structure BlobCacheServerConfig where
  mode : String
  diskCacheDir : String
  diskCacheMaxUsagePct : Float
  enableMemoryCache : Bool := false
  token : String
  prettyLogs : Bool
  objectTtlS : Int
  maxCachePct : Int
  pageSizeBytes : Int
  sources : List SourceConfig
  s3DownloadConcurrency : Int
  s3DownloadChunkSize : Int

/-! ## Messages -/

namespace Proto

structure JuiceFSConfig where
  redisUri : String
  bucket : String
  accessKey : String
  secretKey : String

structure MountPointConfig where
  bucketName : String
  accessKey : String
  secretKey : String
  region : String
  endpointUrl : String
  forcePathStyle : Bool

/-- A sub-message can be missing. -/
structure SourceConfig where
  mode : String
  filesystemName : String
  filesystemPath : String
  juicefs : Option JuiceFSConfig := none
  mountpoint : Option MountPointConfig := none

structure BlobCacheServerConfig where
  mode : String
  diskCacheDir : String
  diskCacheMaxUsagePct : Float32
  maxCachePct : Int
  pageSizeBytes : Int
  objectTtlS : Int
  prettyLogs : Bool
  token : String
  sources : List SourceConfig
  s3DownloadConcurrency : Int
  s3DownloadChunkSize : Int

structure GetRegionConfigResponse where
  ok : Bool
  serverConfig : Option BlobCacheServerConfig

end Proto

/-! ## Encoder and decoder -/

/-- The body of the loop in `ToProto`. -/
def SourceConfig.toProto (source : SourceConfig) : Proto.SourceConfig :=
  let protoSource : Proto.SourceConfig := ⟨source.mode, source.filesystemName, source.filesystemPath, none, none⟩
  if source.mode = sourceModeMountPoint then
    { protoSource with
      mountpoint := some
        { bucketName := source.mountPoint.bucketName
          accessKey := source.mountPoint.accessKey
          secretKey := source.mountPoint.secretKey
          region := source.mountPoint.region
          endpointUrl := source.mountPoint.endpointURL
          forcePathStyle := source.mountPoint.forcePathStyle } }
  else if source.mode = sourceModeJuiceFS then
    { protoSource with
      juicefs := some
        { redisUri := source.juiceFS.redisURI
          bucket := source.juiceFS.bucket
          accessKey := source.juiceFS.accessKey
          secretKey := source.juiceFS.secretKey } }
  else protoSource

def BlobCacheServerConfig.toProto (c : BlobCacheServerConfig) : Proto.BlobCacheServerConfig where
  mode := c.mode
  diskCacheDir := c.diskCacheDir
  diskCacheMaxUsagePct := c.diskCacheMaxUsagePct.toFloat32
  maxCachePct := c.maxCachePct
  pageSizeBytes := c.pageSizeBytes
  objectTtlS := c.objectTtlS
  prettyLogs := c.prettyLogs
  token := c.token
  sources := c.sources.map SourceConfig.toProto
  s3DownloadConcurrency := c.s3DownloadConcurrency
  s3DownloadChunkSize := c.s3DownloadChunkSize

/-- The body of the loop in `BlobCacheServerConfigFromProto`; `none` is the panic where a sub-message is
missing. -/
def SourceConfig.fromProto (protoSource : Proto.SourceConfig) : Option SourceConfig :=
  let localSource : SourceConfig :=
    { mode := protoSource.mode
      filesystemName := protoSource.filesystemName
      filesystemPath := protoSource.filesystemPath }
  if protoSource.mode = sourceModeMountPoint then
    protoSource.mountpoint.map fun mountpoint =>
      { localSource with
        mountPoint :=
          { bucketName := mountpoint.bucketName
            accessKey := mountpoint.accessKey
            secretKey := mountpoint.secretKey
            region := mountpoint.region
            endpointURL := mountpoint.endpointUrl
            forcePathStyle := mountpoint.forcePathStyle } }
  else if protoSource.mode = sourceModeJuiceFS then
    protoSource.juicefs.map fun juicefs =>
      { localSource with
        juiceFS :=
          { redisURI := juicefs.redisUri
            bucket := juicefs.bucket
            accessKey := juicefs.accessKey
            secretKey := juicefs.secretKey } }
  else some localSource

def blobCacheServerConfigFromProto (protoConfig : Proto.BlobCacheServerConfig) : Option BlobCacheServerConfig :=
  (protoConfig.sources.mapM SourceConfig.fromProto).map fun sources =>
    { mode := protoConfig.mode
      diskCacheDir := protoConfig.diskCacheDir
      diskCacheMaxUsagePct := protoConfig.diskCacheMaxUsagePct.toFloat
      maxCachePct := protoConfig.maxCachePct
      pageSizeBytes := protoConfig.pageSizeBytes
      objectTtlS := protoConfig.objectTtlS
      prettyLogs := protoConfig.prettyLogs
      token := protoConfig.token
      sources := sources
      s3DownloadConcurrency := protoConfig.s3DownloadConcurrency
      s3DownloadChunkSize := protoConfig.s3DownloadChunkSize }

/-- The handler of `GetRegionConfig`, with the coordinator's `Regions`. -/
def getRegionConfig (regions : String → Option BlobCacheServerConfig) (locality : String) :
    Proto.GetRegionConfigResponse :=
  match regions locality with
  | none => ⟨false, none⟩
  | some config => ⟨true, some config.toProto⟩

/-- What `NewCacheService` of a slave starts with, its own configuration being `server`. An error of
`CoordinatorClientRemote.GetRegionConfig` leaves that in place; `none` is a panic. -/
def startConfig (server : BlobCacheServerConfig) (response : Except String Proto.GetRegionConfigResponse) :
    Option BlobCacheServerConfig :=
  match response with
  | .error _ => some server
  | .ok response =>
    if !response.ok then some server else response.serverConfig.bind blobCacheServerConfigFromProto

/-! ## What comes through -/

/-- What of a source the slave has. -/
def SourceConfig.received (source : SourceConfig) : SourceConfig :=
  { mode := source.mode
    filesystemName := source.filesystemName
    filesystemPath := source.filesystemPath
    juiceFS :=
      if source.mode = sourceModeJuiceFS then
        { source.juiceFS with cacheSize := 0, blockSize := 0, prefetch := 0, bufferSize := 0 }
      else {}
    mountPoint := if source.mode = sourceModeMountPoint then source.mountPoint else {} }

theorem modes_differ : sourceModeMountPoint ≠ sourceModeJuiceFS := by decide

/-- A sub-message is there whenever its mode asks for it. -/
theorem SourceConfig.fromProto_toProto (source : SourceConfig) :
    SourceConfig.fromProto source.toProto = some source.received := by
  unfold SourceConfig.toProto SourceConfig.received
  by_cases mountPoint : source.mode = sourceModeMountPoint
  · have other : source.mode ≠ sourceModeJuiceFS := fun juiceFS => modes_differ (mountPoint.symm.trans juiceFS)
    simp only [if_pos mountPoint, if_neg other, SourceConfig.fromProto, Option.map_some]
  · by_cases juiceFS : source.mode = sourceModeJuiceFS
    · simp only [if_neg mountPoint, if_pos juiceFS, SourceConfig.fromProto, Option.map_some]
    · simp only [if_neg mountPoint, if_neg juiceFS, SourceConfig.fromProto]

theorem fromProto_sources (sources : List SourceConfig) :
    (sources.map SourceConfig.toProto).mapM SourceConfig.fromProto = some (sources.map SourceConfig.received) := by
  induction sources with
  | nil => rfl
  | cons source sources ih =>
    simp only [List.map_cons, List.mapM_cons, SourceConfig.fromProto_toProto, ih]
    rfl

/-- **A configuration, encoded and decoded**: the decoder does not fail. -/
theorem fromProto_toProto (c : BlobCacheServerConfig) :
    blobCacheServerConfigFromProto c.toProto = some
      { c with
        diskCacheMaxUsagePct := c.diskCacheMaxUsagePct.toFloat32.toFloat
        enableMemoryCache := false
        sources := c.sources.map SourceConfig.received } := by
  simp only [blobCacheServerConfigFromProto, BlobCacheServerConfig.toProto, fromProto_sources, Option.map_some]

/-- The slave has the source that was configured, as far as its mode uses it. -/
structure SourceConfig.Agrees (sent received : SourceConfig) : Prop where
  mode : received.mode = sent.mode
  filesystemName : received.filesystemName = sent.filesystemName
  filesystemPath : received.filesystemPath = sent.filesystemPath
  juiceFS : sent.mode = sourceModeJuiceFS → received.juiceFS = sent.juiceFS
  mountPoint : sent.mode = sourceModeMountPoint → received.mountPoint = sent.mountPoint

/-- The fields that the message lacks are not set. -/
def JuiceFSConfig.Plain (config : JuiceFSConfig) : Prop :=
  config.cacheSize = 0 ∧ config.blockSize = 0 ∧ config.prefetch = 0 ∧ config.bufferSize = 0

theorem SourceConfig.agrees_received_iff (source : SourceConfig) :
    source.Agrees source.received ↔ (source.mode = sourceModeJuiceFS → source.juiceFS.Plain) := by
  constructor
  · intro agrees juiceFS
    have same := agrees.juiceFS juiceFS
    simp only [SourceConfig.received, if_pos juiceFS] at same
    rw [← same]
    exact ⟨rfl, rfl, rfl, rfl⟩
  · intro plain
    refine ⟨rfl, rfl, rfl, fun juiceFS => ?_, fun mountPoint => if_pos mountPoint⟩
    obtain ⟨cacheSize, blockSize, prefetch, bufferSize⟩ := plain juiceFS
    simp only [SourceConfig.received, if_pos juiceFS]
    exact JuiceFSConfig.ext rfl rfl rfl rfl cacheSize.symm blockSize.symm prefetch.symm bufferSize.symm

/-- **Region configurations reach the slave.** Decoding never fails, and the sources are those that were
encoded, in their order and with all that their modes select: exactly if no source on JuiceFS sets a size
or the prefetching. -/
theorem region_sources_intact_iff (c : BlobCacheServerConfig) :
    ∃ decoded, blobCacheServerConfigFromProto c.toProto = some decoded ∧
      (List.Forall₂ SourceConfig.Agrees c.sources decoded.sources ↔
        ∀ source ∈ c.sources, source.mode = sourceModeJuiceFS → source.juiceFS.Plain) := by
  refine ⟨_, fromProto_toProto c, ?_⟩
  dsimp only
  rw [List.forall₂_map_right_iff, List.forall₂_same]
  exact forall₂_congr fun source _ => source.agrees_received_iff

/-- A region whose source has a cache of 100 GiB. -/
def cachingRegion : BlobCacheServerConfig :=
  { mode := "slave", diskCacheDir := "/cache", diskCacheMaxUsagePct := 0.95, token := "t", prettyLogs := false,
    objectTtlS := 300, maxCachePct := 60, pageSizeBytes := 4194304, s3DownloadConcurrency := 4,
    s3DownloadChunkSize := 67108864,
    sources :=
      [{ mode := sourceModeJuiceFS, filesystemName := "fs", filesystemPath := "/mnt/fs",
         juiceFS := { redisURI := "redis://r", bucket := "b", cacheSize := 102400 } }] }

/-- The slave mounts it without a cache. -/
theorem region_cache_lost :
    ∃ decoded, blobCacheServerConfigFromProto cachingRegion.toProto = some decoded ∧
      decoded.sources.map (·.juiceFS.cacheSize) = [0] ∧
      ¬ List.Forall₂ SourceConfig.Agrees cachingRegion.sources decoded.sources := by
  refine ⟨_, fromProto_toProto cachingRegion, by decide, fun agree => ?_⟩
  have first := (List.forall₂_cons.mp agree).1
  exact absurd (first.juiceFS rfl) (by decide)

/-! ## What the slave runs -/

/-- A program that is run: its name with its arguments, and what its environment is set to, if it is set. -/
structure ShellCommand where
  args : List String
  env : List String := []
  deriving DecidableEq, Repr

def JuiceFSConfig.mount (config : JuiceFSConfig) (localPath : String) : ShellCommand :=
  let prefetch := if config.prefetch ≤ 0 then "1" else toString config.prefetch
  let bufferSize := if config.bufferSize ≤ 0 then "300" else toString config.bufferSize
  { args := ["juicefs", "mount", config.redisURI, localPath, "-d", "--bucket", config.bucket,
      "--cache-size", toString config.cacheSize, "--prefetch", prefetch, "--buffer-size", bufferSize,
      "--no-bgjob", "--no-usage-report"] }

def JuiceFSConfig.format (config : JuiceFSConfig) (fsName : String) : ShellCommand :=
  let blockSize := if config.blockSize ≤ 0 then "4096" else toString config.blockSize
  let keys := if config.accessKey ≠ "" ∨ config.secretKey ≠ "" then
      ["--access-key", config.accessKey, "--secret-key", config.secretKey]
    else []
  { args := ["juicefs", "format", "--storage", "s3", "--bucket", config.bucket, "--block-size", blockSize,
      config.redisURI, fsName, "--no-update"] ++ keys }

/-- `MountPointSource.Mount`, after a previous mount has been removed. -/
def MountPointConfig.mount (config : MountPointConfig) (localPath : String) : ShellCommand :=
  let style := if config.forcePathStyle then ["--force-path-style"] else []
  { args := ["mount-s3", config.bucketName, localPath, "--region", config.region, "--endpoint-url",
      config.endpointURL, "--read-only"] ++ style
    env := if config.accessKey ≠ "" ∨ config.secretKey ≠ "" then
        ["AWS_ACCESS_KEY_ID=" ++ config.accessKey, "AWS_SECRET_ACCESS_KEY=" ++ config.secretKey]
      else [] }

/-- The programs that `NewSource` runs, if none fails. -/
def SourceConfig.commands (config : SourceConfig) : Except String (List ShellCommand) :=
  if config.mode = sourceModeJuiceFS then
    .ok [config.juiceFS.format config.filesystemName, config.juiceFS.mount config.filesystemPath]
  else if config.mode = sourceModeMountPoint then
    .ok [{ args := ["umount", config.filesystemPath] }, config.mountPoint.mount config.filesystemPath]
  else .error "invalid storage mode"

/-- A size that is not set, or set to the default. -/
def OrDefault (size default : Int) : Prop := size ≤ 0 ∨ size = default

/-- The size in a command line is the default exactly if it is not set, or set to it. -/
theorem rendered_iff (size default : Int) :
    (if size ≤ 0 then toString default else toString size) = toString default ↔ OrDefault size default := by
  unfold OrDefault
  by_cases unset : size ≤ 0
  · simp [unset]
  · rw [if_neg unset]
    constructor
    · intro same
      exact .inr (Int.repr_injective same)
    · intro same
      rw [same.resolve_left unset]

/-- The sizes and the prefetching of a source on JuiceFS are the defaults. -/
structure JuiceFSConfig.Default (config : JuiceFSConfig) : Prop where
  cacheSize : config.cacheSize = 0
  blockSize : OrDefault config.blockSize 4096
  prefetch : OrDefault config.prefetch 1
  bufferSize : OrDefault config.bufferSize 300

theorem JuiceFSConfig.format_eq_iff (config : JuiceFSConfig) (fsName : String) :
    JuiceFSConfig.format { config with cacheSize := 0, blockSize := 0, prefetch := 0, bufferSize := 0 } fsName =
      config.format fsName ↔ OrDefault config.blockSize 4096 := by
  rw [← rendered_iff]
  have default : toString (4096 : Int) = "4096" := rfl
  simp only [format, Int.le_refl, if_true, ShellCommand.mk.injEq, and_true, List.append_cancel_right_eq,
    List.cons.injEq, true_and, default]
  exact eq_comm

theorem JuiceFSConfig.mount_eq_iff (config : JuiceFSConfig) (localPath : String) :
    JuiceFSConfig.mount { config with cacheSize := 0, blockSize := 0, prefetch := 0, bufferSize := 0 } localPath =
      config.mount localPath ↔
      config.cacheSize = 0 ∧ OrDefault config.prefetch 1 ∧ OrDefault config.bufferSize 300 := by
  rw [← rendered_iff, ← rendered_iff]
  have one : toString (1 : Int) = "1" := rfl
  have threeHundred : toString (300 : Int) = "300" := rfl
  have cacheSize : toString (0 : Int) = toString config.cacheSize ↔ config.cacheSize = 0 :=
    ⟨fun same => (Int.repr_injective same).symm, fun unset => by rw [unset]⟩
  simp only [mount, Int.le_refl, if_true, ShellCommand.mk.injEq, and_true, List.cons.injEq, true_and, one,
    threeHundred, cacheSize]
  rw [@eq_comm _ "1", @eq_comm _ "300"]

/-- A slave runs what the configuration of its region asks for, exactly if the sources on JuiceFS are
configured with the defaults. -/
theorem SourceConfig.commands_received_iff (source : SourceConfig) :
    source.received.commands = source.commands ↔ (source.mode = sourceModeJuiceFS → source.juiceFS.Default) := by
  by_cases juiceFS : source.mode = sourceModeJuiceFS
  · have parts : source.received.commands = source.commands ↔
        OrDefault source.juiceFS.blockSize 4096 ∧ source.juiceFS.cacheSize = 0 ∧
          OrDefault source.juiceFS.prefetch 1 ∧ OrDefault source.juiceFS.bufferSize 300 := by
      rw [← source.juiceFS.format_eq_iff source.filesystemName, ← source.juiceFS.mount_eq_iff source.filesystemPath]
      simp only [commands, received, if_pos juiceFS, Except.ok.injEq, List.cons.injEq, and_true]
    rw [parts]
    constructor
    · rintro ⟨blockSize, cacheSize, prefetch, bufferSize⟩ -
      exact ⟨cacheSize, blockSize, prefetch, bufferSize⟩
    · intro default
      obtain ⟨cacheSize, blockSize, prefetch, bufferSize⟩ := default juiceFS
      exact ⟨blockSize, cacheSize, prefetch, bufferSize⟩
  · refine iff_of_true ?_ fun juiceFS' => absurd juiceFS' juiceFS
    by_cases mountPoint : source.mode = sourceModeMountPoint
    · simp only [commands, received, if_neg juiceFS, if_pos mountPoint]
    · simp only [commands, received, if_neg juiceFS, if_neg mountPoint]

/-- **What the slave mounts.** A slave in a region with a configuration starts, and runs for its sources the
commands that this configuration asks for exactly if its sources on JuiceFS have the defaults. -/
theorem slave_commands_iff {regions : String → Option BlobCacheServerConfig} {locality : String}
    {c : BlobCacheServerConfig} (configured : regions locality = some c) (server : BlobCacheServerConfig) :
    ∃ started, startConfig server (.ok (getRegionConfig regions locality)) = some started ∧
      (started.sources.map SourceConfig.commands = c.sources.map SourceConfig.commands ↔
        ∀ source ∈ c.sources, source.mode = sourceModeJuiceFS → source.juiceFS.Default) := by
  have decoded : startConfig server (.ok (getRegionConfig regions locality)) =
      blobCacheServerConfigFromProto c.toProto := by
    simp only [startConfig, getRegionConfig, configured, Bool.not_true, Bool.false_eq_true, if_false, Option.bind_some]
  refine ⟨_, decoded.trans (fromProto_toProto c), ?_⟩
  simp only [List.map_map, List.map_inj_left]
  exact forall₂_congr fun source _ => source.commands_received_iff

end Blobcache.Coordinator

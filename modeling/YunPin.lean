import YunPin.AccountIsolation
import YunPin.ConcurrentMerge
import YunPin.Convergence
import YunPin.CredentialBundle
import YunPin.Delivery
import YunPin.FuzzyAliases
import YunPin.Inflation
import YunPin.KeyringAgreement
import YunPin.LongCorrection
import YunPin.MergeLaws
import YunPin.NativeAnalysis
import YunPin.NormalForms
import YunPin.OneRecord
import YunPin.PhraseRevision
import YunPin.PinSurvival
import YunPin.PinyinKeys
import YunPin.RecorderRing
import YunPin.RecoveryDistance
import YunPin.ReplayCrash
import YunPin.ScalarDecoders
import YunPin.Selections
import YunPin.SizeLimits
import YunPin.SnapshotExport
import YunPin.Snapshots
import YunPin.TextCapture
import YunPin.UploadOrder

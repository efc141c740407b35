import LabsOS.Archiver.Record
import LabsOS.Kernel.Exec

/-!
# The archiver

The functions of `lab5_archive/main.c`, statement by statement. A C result of
0 or -1 is `true` or `false`; every loop of the source is a `Prog.while_`, whose
state is what the loop carries from one round to the next. `perror` is
modelled by its text, without the description of `errno` it appends.
-/

namespace LabsOS.Archiver

open Posix

/-- `MAX_ALLOWED_SIZE`. -/
def maxAllowedSize : Int := 1024 * 1024 * 1024

/-- `TRANSFER_BUFFER_SIZE`. -/
def transferBufferSize : Nat := 8192

-- ---------------------------------------------------------------------------
-- Copying and skipping
-- ---------------------------------------------------------------------------

def completeWrite (fd : Fd) (buf : Bytes) : Posix Bool :=
  Prog.while_ (fun left : Bytes =>
    if left = [] then pure (.inr true)
    else do
      match ← write fd left with
      | none => pure (.inr false)
      | some 0 => pure (.inr false)
      | some written => pure (.inl (left.drop written))) buf

/-- The bytes asked for when `remaining` are still to be transferred. -/
def chunkSize (remaining : Int) : Nat :=
  if remaining > transferBufferSize then transferBufferSize else remaining.toNat

def duplicateContent (src dst : Fd) (totalBytes : Int) : Posix Bool :=
  Prog.while_ (fun bytesRemaining : Int =>
    if bytesRemaining ≤ 0 then pure (.inr true)
    else do
      match ← read src (chunkSize bytesRemaining) with
      | none => pure (.inr false)
      | some [] => pure (.inr false)
      | some localBuf =>
        match ← completeWrite dst localBuf with
        | false => pure (.inr false)
        | true => pure (.inl (bytesRemaining - localBuf.length))) totalBytes

def skipBytes (fd : Fd) (length : Int) : Posix Bool :=
  if length ≤ 0 then pure true
  else do
    match ← lseek fd length .cur with
    | some _ => pure true
    | none =>
      Prog.while_ (fun remaining : Int =>
        if remaining ≤ 0 then pure (.inr true)
        else do
          match ← read fd (chunkSize remaining) with
          | none => pure (.inr false)
          | some [] => pure (.inr false)
          | some discardBuf => pure (.inl (remaining - discardBuf.length))) length

def applyOriginalAttributes (filepath : CString) (originalStat : Stat) : Posix Unit := do
  match ← chmod filepath originalStat.stMode with
  | false => perror "Внимание: не удалось установить права доступа"
  | true => pure ()
  let _ ← chown filepath originalStat.stUid originalStat.stGid
  match ← utime filepath originalStat.stAtime originalStat.stMtime with
  | false => perror "Внимание: не удалось восстановить временные метки"
  | true => pure ()

-- ---------------------------------------------------------------------------
-- compress_archive_file
-- ---------------------------------------------------------------------------

/-- How the loop of `compress_archive_file` is left: by `goto error_cleanup`, or
because a header was not read in full (`readFailed`: `read_bytes == -1`). -/
inductive CompressExit where
  | errorCleanup
  | headerNotRead (readFailed : Bool)
  deriving DecidableEq, Repr

/-- The body of the loop for a record whose header was read. -/
def compressRecord (inputFd tempFd : Fd) (currentRecord : ArchiveRecord) :
    Posix (Unit ⊕ CompressExit) :=
  if currentRecord.markedDeleted = 0 then do
    match ← completeWrite tempFd currentRecord.bytes with
    | false =>
      perror "compress: ошибка записи заголовка"
      pure (.inr .errorCleanup)
    | true =>
      match ← duplicateContent inputFd tempFd currentRecord.stSize with
      | false =>
        perror "compress: ошибка копирования данных"
        pure (.inr .errorCleanup)
      | true => pure (.inl ())
  else do
    match ← skipBytes inputFd currentRecord.stSize with
    | false =>
      perror "compress: ошибка пропуска данных"
      pure (.inr .errorCleanup)
    | true => pure (.inl ())

def compressRound (inputFd tempFd : Fd) (_ : Unit) : Posix (Unit ⊕ CompressExit) := do
  match ← read inputFd recordSize with
  | none => pure (.inr (.headerNotRead true))
  | some buf =>
    match ArchiveRecord.ofBytes? buf with
    | none => pure (.inr (.headerNotRead false))
    | some currentRecord => compressRecord inputFd tempFd currentRecord

/-- The label `error_cleanup`. -/
def compressCleanup (inputFd tempFd : Fd) (tempArchiveName : CString) : Posix Bool := do
  let _ ← close inputFd
  let _ ← close tempFd
  let _ ← unlink tempArchiveName
  pure false

/-- `compress_archive_file` after its loop. -/
def compressFinish (archivePath : CString) (inputFd tempFd : Fd) (tempArchiveName : CString) :
    CompressExit → Posix Bool
  | .errorCleanup => compressCleanup inputFd tempFd tempArchiveName
  | .headerNotRead true => do
    perror "compress: ошибка чтения архива"
    compressCleanup inputFd tempFd tempArchiveName
  | .headerNotRead false => do
    let _ ← fsync tempFd
    let _ ← close tempFd
    let _ ← close inputFd
    match ← rename tempArchiveName archivePath with
    | false =>
      perror "compress: ошибка замены архива"
      let _ ← unlink tempArchiveName
      pure false
    | true => pure true

def compressArchiveFile (archivePath : CString) : Posix Bool := do
  match ← openFile archivePath { read := true } 0 with
  | none =>
    perror "compress: ошибка открытия архива"
    pure false
  | some inputFd =>
    match ← mkstemp "archiver_temp_XXXXXX" with
    | none =>
      perror "compress: ошибка создания временного файла"
      let _ ← close inputFd
      pure false
    | some (tempFd, tempArchiveName) =>
      match ← fstat inputFd with
      | some archiveAttributes => discard (fchmod tempFd archiveAttributes.stMode)
      | none => pure ()
      let exit ← Prog.while_ (compressRound inputFd tempFd) ()
      compressFinish archivePath inputFd tempFd tempArchiveName exit

-- ---------------------------------------------------------------------------
-- add_file_to_archive
-- ---------------------------------------------------------------------------

/-- The line that reports a successful addition. -/
def addedLine (targetFile archiveName : CString) : Line :=
  ⟨"Успешно: файл '%s' добавлен в архив '%s'.\n", [.str targetFile.bytes, .str archiveName.bytes]⟩

def closeBoth (fd₁ fd₂ : Fd) : Posix Unit := do
  let _ ← close fd₁
  let _ ← close fd₂

/-- `add_file_to_archive` once both files are open. -/
def appendFile (archiveName targetFile : CString) (archiveFd sourceFd : Fd) : Posix Unit :=
  if targetFile.bytes.length ≥ pathSize then do
    printf "Ошибка: имя файла '%s' слишком длинное\n" [.str targetFile.bytes]
    closeBoth sourceFd archiveFd
  else do
    match ← fstat sourceFd with
    | none =>
      perror "Ошибка: не удалось получить метаданные файла"
      closeBoth sourceFd archiveFd
    | some stats =>
      let newRecord := ArchiveRecord.new targetFile stats
      match ← completeWrite archiveFd newRecord.bytes with
      | false =>
        perror "Ошибка: запись заголовка в архив не удалась"
        closeBoth sourceFd archiveFd
      | true =>
        match ← duplicateContent sourceFd archiveFd newRecord.stSize with
        | false =>
          perror "Ошибка: добавление данных файла в архив не удалось"
          closeBoth sourceFd archiveFd
        | true =>
          printf (addedLine targetFile archiveName).fmt (addedLine targetFile archiveName).args
          closeBoth sourceFd archiveFd

def addFileToArchive (archiveName targetFile : CString) : Posix Unit := do
  match ← openFile archiveName { write := true, creat := true, append := true } 0o666 with
  | none => perror "Ошибка: не удалось открыть архив"
  | some archiveFd =>
    match ← openFile targetFile { read := true } 0 with
    | none =>
      perror "Ошибка: не удалось открыть исходный файл"
      discard (close archiveFd)
    | some sourceFd => appendFile archiveName targetFile archiveFd sourceFd

-- ---------------------------------------------------------------------------
-- extract_and_remove_file
-- ---------------------------------------------------------------------------

/-- How the loop of `extract_and_remove_file` is left: by `break`, or with the
record copied out and its mark of deletion written. -/
inductive ExtractExit where
  | broke (fileFound : Bool)
  | extracted
  deriving DecidableEq, Repr

/-- Skip the data of a record that is given up. -/
def skipOrReport (archiveFd : Fd) (size : Int) (msg : String) : Posix Unit := do
  match ← lseek archiveFd size .cur with
  | none => perror msg
  | some _ => pure ()

/-- Write the header back with the mark of deletion set. -/
def writeMark (archiveFd : Fd) (recordStart : Nat) (record : ArchiveRecord) : Posix Unit := do
  match ← lseek archiveFd recordStart .set with
  | none => perror "Ошибка: позиционирование в архиве для пометки удаления не удалось"
  | some _ =>
    match ← write archiveFd record.mark.bytes with
    | some n =>
      if n = recordSize then pure ()
      else perror "Ошибка: запись пометки удаления в архив не удалась"
    | none => perror "Ошибка: запись пометки удаления в архив не удалась"

/-- The record that was asked for, once its output file is open. -/
def extractTo (archiveFd outputFd : Fd) (recordStart : Nat) (record : ArchiveRecord) :
    Posix ExtractExit := do
  match ← duplicateContent archiveFd outputFd record.stSize with
  | false =>
    perror "Ошибка: извлечение данных файла не удалось"
    let _ ← close outputFd
    pure (.broke true)
  | true =>
    let _ ← close outputFd
    applyOriginalAttributes record.path record.fileStats
    writeMark archiveFd recordStart record
    pure .extracted

/-- The record that was asked for. -/
def extractRecord (archiveFd : Fd) (fileToExtract : CString) (recordStart : Nat)
    (record : ArchiveRecord) : Posix ExtractExit :=
  if record.stSize > maxAllowedSize then do
    printf "Предупреждение: файл '%s' слишком большой (размер: %lld байт)\n"
      [.str fileToExtract.bytes, .int record.stSize]
    skipOrReport archiveFd record.stSize "Ошибка: пропуск данных большого файла не удался"
    pure (.broke true)
  else do
    match ← openFile record.path { write := true, creat := true, trunc := true }
        record.fileStats.stMode with
    | none =>
      perror "Ошибка: не удалось создать файл для извлечения"
      skipOrReport archiveFd record.stSize
        "Ошибка: не удалось пропустить данные при неудачном создании файла"
      pure (.broke true)
    | some outputFd => extractTo archiveFd outputFd recordStart record

/-- The body of the loop for a record whose header was read. -/
def extractOrSkip (archiveFd : Fd) (fileToExtract : CString) (recordStart : Nat)
    (record : ArchiveRecord) : Posix (Unit ⊕ ExtractExit) :=
  if record.path = fileToExtract ∧ record.markedDeleted = 0 then
    Sum.inr <$> extractRecord archiveFd fileToExtract recordStart record
  else do
    match ← lseek archiveFd record.stSize .cur with
    | none =>
      perror "Ошибка: позиционирование в архиве при пропуске записи не удалось"
      pure (.inr (.broke false))
    | some _ => pure (.inl ())

def extractRound (archiveFd : Fd) (fileToExtract : CString) (_ : Unit) :
    Posix (Unit ⊕ ExtractExit) := do
  match ← lseek archiveFd 0 .cur with
  | none =>
    perror "Ошибка определения позиции в архиве"
    pure (.inr (.broke false))
  | some recordStart =>
    match ← read archiveFd recordSize with
    | some [] => pure (.inr (.broke false))
    | bytesRead =>
      match bytesRead.bind ArchiveRecord.ofBytes? with
      | none =>
        perror "Ошибка: чтение заголовка из архива не удалось"
        pure (.inr (.broke false))
      | some record =>
        extractOrSkip archiveFd fileToExtract recordStart record

/-- The line that reports a successful extraction. -/
def extractedLine (fileToExtract : CString) : Line :=
  ⟨"Успешно: файл '%s' извлечён и удалён из архива.\n", [.str fileToExtract.bytes]⟩

/-- The line that reports that there is no such file. -/
def notFoundLine (fileToExtract : CString) : Line :=
  ⟨"Информация: файл '%s' не найден в архиве.\n", [.str fileToExtract.bytes]⟩

/-- `extract_and_remove_file` after the mark of deletion. -/
def extractFinish (archiveFd : Fd) (archiveName fileToExtract : CString) : Posix Unit := do
  let _ ← close archiveFd
  match ← compressArchiveFile archiveName with
  | false => fprintfErr "Предупреждение: сжатие архива после удаления не выполнено.\n" []
  | true => pure ()
  printf (extractedLine fileToExtract).fmt (extractedLine fileToExtract).args

/-- `extract_and_remove_file` after its loop. -/
def extractAfterLoop (archiveFd : Fd) (archiveName fileToExtract : CString) :
    ExtractExit → Posix Unit
  | .extracted => extractFinish archiveFd archiveName fileToExtract
  | .broke true => discard (close archiveFd)
  | .broke false => do
    printf (notFoundLine fileToExtract).fmt (notFoundLine fileToExtract).args
    discard (close archiveFd)

def extractAndRemoveFile (archiveName fileToExtract : CString) : Posix Unit := do
  match ← openFile archiveName { read := true, write := true } 0 with
  | none => perror "Ошибка: не удалось открыть архив"
  | some archiveFd =>
    let exit ← Prog.while_ (extractRound archiveFd fileToExtract) ()
    extractAfterLoop archiveFd archiveName fileToExtract exit

-- ---------------------------------------------------------------------------
-- display_archive_contents
-- ---------------------------------------------------------------------------

/-- The line printed for a record. -/
def displayLine (record : ArchiveRecord) (timeText : Option Bytes) : Line :=
  ⟨"%-30s %-10lld %-20s\n", [.str record.path.bytes, .int record.stSize,
    (timeText.map Arg.str).getD (.text "неизвестно")]⟩

def displayRound (archiveFd : Fd) (_ : Unit) : Posix (Unit ⊕ Unit) := do
  match ← read archiveFd recordSize with
  | none => pure (.inr ())
  | some [] => pure (.inr ())
  | some buf =>
    match ArchiveRecord.ofBytes? buf with
    | none =>
      perror "Ошибка: чтение заголовка при просмотре архива не удалось"
      pure (.inr ())
    | some record =>
      if record.markedDeleted = 0 then do
        let timeText ← strftimeLocal record.fileStats.stMtime
        printf (displayLine record timeText).fmt (displayLine record timeText).args
      else pure ()
      match ← lseek archiveFd record.stSize .cur with
      | none =>
        perror "Ошибка: позиционирование в архиве при просмотре не удалось"
        pure (.inr ())
      | some _ => pure (.inl ())

/-- The lines above the listing. -/
def displayHeading (archiveName : CString) : List Line :=
  [⟨"Содержимое архива '%s' (удалённые файлы скрыты):\n", [.str archiveName.bytes]⟩,
   ⟨"--------------------------------------------------\n", []⟩,
   ⟨"%-30s %-12s %-20s\n", [.text "Имя файла", .text "Размер (байт)", .text "Дата изменения"]⟩,
   ⟨"--------------------------------------------------\n", []⟩]

def printLines : List Line → Posix Unit
  | [] => pure ()
  | l :: ls => do
    printf l.fmt l.args
    printLines ls

def displayArchiveContents (archiveName : CString) : Posix Unit := do
  match ← openFile archiveName { read := true } 0 with
  | none => perror "Ошибка: не удалось открыть архив"
  | some archiveFd =>
    printLines (displayHeading archiveName)
    Prog.while_ (displayRound archiveFd) ()
    discard (close archiveFd)

end LabsOS.Archiver
